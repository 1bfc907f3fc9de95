/-!
Text between double quotes.

A backslash hides a quote or another backslash, and names three control characters;
before any other character it stands for itself. `decode_encode` and `body?_encode` say
that every text has a quoted form.
-/

namespace Formulae.Text.Quoted

/-- The characters before the closing quote; a backslash takes the next one with it. -/
def body? : List Char → Option (List Char)
  | [] => none
  | '"' :: _ => some []
  | '\\' :: [] => none
  | '\\' :: c :: cs => (body? cs).map fun body => '\\' :: c :: body
  | c :: cs => (body? cs).map (c :: ·)

/-- What a backslash and a character stand for. -/
def escaped : Char → List Char
  | '"' => ['"']
  | '\\' => ['\\']
  | 'n' => ['\n']
  | 't' => ['\t']
  | 'r' => ['\r']
  | c => ['\\', c]

def decode : List Char → List Char
  | '\\' :: c :: cs => escaped c ++ decode cs
  | c :: cs => c :: decode cs
  | [] => []

/-- Puts a backslash before each quote and each backslash. -/
def encode : List Char → List Char
  | [] => []
  | c :: cs => if c = '"' ∨ c = '\\' then '\\' :: c :: encode cs else c :: encode cs

theorem decode_cons {c : Char} {cs : List Char} (h : c ≠ '\\') :
    decode (c :: cs) = c :: decode cs := by
  rw [decode.eq_def]
  split
  · next eq => cases eq; exact absurd rfl h
  · next eq => cases eq; rfl
  · next eq => cases eq

theorem body?_cons {c : Char} {cs : List Char} (quote : c ≠ '"') (backslash : c ≠ '\\') :
    body? (c :: cs) = (body? cs).map (c :: ·) := by
  rw [body?.eq_def]
  split
  · next eq => cases eq
  · next eq => cases eq; exact absurd rfl quote
  · next eq => cases eq; exact absurd rfl backslash
  · next eq => cases eq; exact absurd rfl backslash
  · next eq => cases eq; rfl

theorem decode_encode (cs : List Char) : decode (encode cs) = cs := by
  induction cs with
  | nil => rfl
  | cons c cs ih =>
    by_cases h : c = '"' ∨ c = '\\'
    · rw [encode, if_pos h, decode, ih]
      rcases h with rfl | rfl <;> rfl
    · rw [encode, if_neg h, decode_cons (fun eq => h (.inr eq)), ih]

theorem body?_encode (cs rest : List Char) :
    body? (encode cs ++ '"' :: rest) = some (encode cs) := by
  induction cs with
  | nil => rfl
  | cons c cs ih =>
    by_cases h : c = '"' ∨ c = '\\'
    · simp only [encode, if_pos h, List.cons_append, body?, ih, Option.map_some]
    · rw [encode, if_neg h, List.cons_append,
        body?_cons (fun eq => h (.inl eq)) (fun eq => h (.inr eq)), ih, Option.map_some]

end Formulae.Text.Quoted
