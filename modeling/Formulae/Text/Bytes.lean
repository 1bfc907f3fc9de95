import Formulae.Span

/-!
Lengths and cuts of a text in UTF-8 bytes.
-/

namespace Formulae.Text

/-- The number of bytes a run of characters takes. -/
def width : List Char → Nat
  | [] => 0
  | c :: cs => c.utf8Size + width cs

@[simp] theorem width_nil : width [] = 0 := rfl

@[simp] theorem width_cons (c : Char) (cs : List Char) :
    width (c :: cs) = c.utf8Size + width cs := rfl

@[simp] theorem width_append (cs ds : List Char) :
    width (cs ++ ds) = width cs + width ds := by
  induction cs with
  | nil => simp
  | cons c cs ih => simp [ih, Nat.add_assoc]

theorem width_pos {cs : List Char} (h : cs ≠ []) : 0 < width cs := by
  cases cs with
  | nil => exact absurd rfl h
  | cons c cs => have := c.utf8Size_pos; simp; omega

/-- Splits after exactly `bytes` bytes; `none` inside a character and past the end. -/
def splitAtByte? : Nat → List Char → Option (List Char × List Char)
  | 0, cs => some ([], cs)
  | _ + 1, [] => none
  | bytes + 1, c :: cs =>
    if c.utf8Size ≤ bytes + 1 then
      (splitAtByte? (bytes + 1 - c.utf8Size) cs).map fun (before, after) => (c :: before, after)
    else none

theorem splitAtByte?_eq_some_iff {bytes : Nat} {cs before after : List Char} :
    splitAtByte? bytes cs = some (before, after) ↔ cs = before ++ after ∧ width before = bytes := by
  induction cs generalizing bytes before with
  | nil => cases bytes <;> cases before <;> simp [splitAtByte?, eq_comm]
  | cons c cs ih =>
    have positive := c.utf8Size_pos
    cases bytes with
    | zero =>
      cases before with
      | nil => simp [splitAtByte?, eq_comm]
      | cons d before => have := d.utf8Size_pos; simp [splitAtByte?]; omega
    | succ bytes =>
      cases before with
      | nil => unfold splitAtByte?; split <;> simp
      | cons d before =>
        unfold splitAtByte?
        split
        · simp [ih, Prod.ext_iff]
          constructor
          · rintro ⟨⟨rfl, w⟩, rfl⟩
            exact ⟨⟨rfl, rfl⟩, by omega⟩
          · rintro ⟨⟨rfl, rfl⟩, w⟩
            exact ⟨⟨rfl, by omega⟩, rfl⟩
        · simp
          rintro rfl rfl w
          omega

/-- The characters of a byte range; `none` unless both ends fall between characters. -/
def slice? (cs : List Char) (s : Span) : Option (List Char) :=
  if s.start ≤ s.stop then do
    let (_, rest) ← splitAtByte? s.start cs
    let (inside, _) ← splitAtByte? s.size rest
    some inside
  else none

theorem slice?_eq_some_iff {cs inside : List Char} {s : Span} :
    slice? cs s = some inside ↔
      ∃ before after, cs = before ++ inside ++ after ∧ width before = s.start ∧
        s.start + width inside = s.stop := by
  unfold slice? Span.size
  split
  · next ordered =>
    simp only [Option.bind_eq_bind, Option.bind_eq_some_iff, Prod.exists, splitAtByte?_eq_some_iff,
      Option.some.injEq]
    constructor
    · rintro ⟨before, rest, ⟨rfl, w⟩, middle, after, ⟨rfl, v⟩, rfl⟩
      exact ⟨before, after, by simp, w, by omega⟩
    · rintro ⟨before, after, rfl, w, v⟩
      exact ⟨before, inside ++ after, ⟨by simp, w⟩, inside, after, ⟨rfl, by omega⟩, rfl⟩
  · simp
    intro before after _ w v
    omega

end Formulae.Text
