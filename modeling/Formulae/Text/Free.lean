/-!
The free text of templates.

A backtick ends a template and an opening brace embeds an expression, unless a
backslash hides them. `decode_encode` says that every text can stand in a template.
-/

namespace Formulae.Text.Free

/-- The characters that a backslash hides. -/
def isMark (c : Char) : Bool := c == '\x60' || c == '\x7b' || c == '\\'

/-- Puts a backslash before each mark. -/
def encode : List Char → List Char
  | [] => []
  | c :: cs => if isMark c then '\\' :: c :: encode cs else c :: encode cs

/-- The length of the free text at the front, and the text without the backslashes
that hide marks. -/
def decode : List Char → Nat × List Char
  | [] => (0, [])
  | '\\' :: c :: cs =>
    if isMark c then
      let (n, text) := decode cs
      (n + 2, c :: text)
    else
      let (n, text) := decode (c :: cs)
      (n + 1, '\\' :: text)
  | c :: cs =>
    if c = '\x60' ∨ c = '\x7b' then (0, [])
    else
      let (n, text) := decode cs
      (n + 1, c :: text)

theorem decode_cons {c : Char} {cs : List Char} (h : isMark c = false) :
    decode (c :: cs) = ((decode cs).1 + 1, c :: (decode cs).2) := by
  rw [decode.eq_def]
  split
  · next eq => cases eq
  · next eq => cases eq; simp [isMark] at h
  · next eq =>
    cases eq
    rw [if_neg (by rintro (rfl | rfl) <;> simp [isMark] at h)]

theorem decode_encode (cs rest : List Char) (h : decode rest = (0, [])) :
    decode (encode cs ++ rest) = ((encode cs).length, cs) := by
  induction cs with
  | nil => exact h
  | cons c cs ih =>
    cases mark : isMark c with
    | true => simp [encode, mark, decode, ih]
    | false => simp [encode, mark, decode_cons mark, ih]

end Formulae.Text.Free
