import Mathlib.Data.Nat.Digits.Defs
import Formulae.Proofs.Spelling.Numeral

/-!
Integers in decimal.

What digits denote is the sum of their values at their places. The decimal text of an integer is
a sign or none and digits that denote it.
-/

namespace Formulae.Decimal

/-- The integer that a sign and digits denote, the last digit being worth the least. -/
def denoted (sign digits : List Char) : Int :=
  let n : Nat := Nat.ofDigits 10 (digits.reverse.map fun c => c.toNat - '0'.toNat)
  if sign = ['-'] then -n else n

theorem ofDigits_eq_places (digits : List Char) :
    ofDigits digits = Nat.ofDigits 10 (digits.reverse.map fun c => c.toNat - '0'.toNat) := by
  rw [Nat.ofDigits_eq_foldr, List.foldr_map, List.foldr_reverse, ofDigits]
  simp only [Nat.cast_id, Nat.add_comm]

theorem denoted_toDigits (sign : List Char) (n : Nat) :
    denoted sign (Nat.toDigits 10 n) = if sign = ['-'] then -(n : Int) else n := by
  have digits : ofDigits (Nat.toDigits 10 n) = n := Nat.ofDigitChars_ten_toDigits
  rw [denoted, ← ofDigits_eq_places, digits]

theorem integerValue_eq (sign digits : List Char) :
    Rule.integerValue sign digits = (Word.ofInt? (denoted sign digits)).map .int := by
  rw [Rule.integerValue, ofDigits_eq_places]
  rfl

/-- The digits of a natural number, behind a sign that leaves it nonnegative or makes it
negative. -/
def spelled (sign : List Char) (isSign : sign = [] ∨ sign = ['+'] ∨ sign = ['-']) (n : Nat) :
    Numeral where
  sign
  whole := Nat.toDigits 10 n
  fraction := []
  isSign
  isWhole _ member := Nat.isDigit_of_mem_toDigits (by decide) (by decide) member
  isFraction := by simp
  present := .inl Nat.toDigits_ne_nil

/-- The text of an integer is a numeral that denotes it. -/
theorem exists_numeral (i : Int) : ∃ n : Numeral, n.chars = (toString i).toList ∧
    n.fraction = [] ∧ denoted n.sign n.whole = i := by
  rw [Int.toString_eq_repr, Int.repr_eq_if]
  split
  · next nonnegative =>
    refine ⟨spelled [] (by simp) i.toNat, ?_, rfl, ?_⟩
    · simp [spelled, Numeral.chars, Numeral.tail]
    · refine (denoted_toDigits [] _).trans ?_
      rw [if_neg (by simp), Int.toNat_of_nonneg nonnegative]
  · next negative =>
    refine ⟨spelled ['-'] (by simp) (-i).toNat, ?_, rfl, ?_⟩
    · simp [spelled, Numeral.chars, Numeral.tail]
    · refine (denoted_toDigits ['-'] _).trans ?_
      rw [if_pos rfl, Int.toNat_of_nonneg (by omega), Int.neg_neg]

end Formulae.Decimal
