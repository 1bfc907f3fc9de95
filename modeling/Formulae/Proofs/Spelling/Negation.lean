import Formulae.Proofs.Spelling.Numeral

/-!
The number that a minus sign makes of a numeral.
-/

namespace Formulae

namespace FloatSign

open Float.Model.UnpackedFloat
open Float.Model (Format UnpackedFloat)

theorem zero_ne_full {n : Nat} (positive : 0 < n) : 0#n ≠ -1#n := by
  rw [BitVec.neg_one_eq_allOnes]
  intro same
  have values := congrArg BitVec.toNat same
  have power := Nat.one_lt_two_pow (Nat.pos_iff_ne_zero.mp positive)
  simp at values
  omega

theorem exponent_pack {spec : Format} {sign : Sign} {mantissa : Nat} {exponent : Int}
    (positive : 0 < mantissa)
    (small : (exponent + spec.exponentBias + spec.mantissaBitsWithoutImplicit).toNat <
      (BitVec.allOnes spec.exponentBits).toNat) :
    unpackExponent (pack spec (.finite sign mantissa exponent positive)) ≠ -1#_ := by
  have range := BitVec.toNat_allOnes (v := spec.exponentBits)
  delta pack
  dsimp only
  rw [if_neg (by omega)]
  split
  · rw [unpackExponent_packComponents, BitVec.neg_one_eq_allOnes]
    intro same
    have values := congrArg BitVec.toNat same
    rw [BitVec.toNat_ofNat, Nat.mod_eq_of_lt (by omega)] at values
    omega
  · rw [unpackExponent_packComponents]
    exact zero_ne_full spec.he

theorem isFinite_unpack {spec : Format} (bits : BitVec spec.numBits) :
    (UnpackedFloat.unpack spec bits).isFinite = true ↔ unpackExponent bits ≠ -1#_ := by
  change (if unpackExponent bits = -1#_ then _ else if unpackExponent bits = 0#_ then _ else _ :
    UnpackedFloat).isFinite = true ↔ _
  by_cases full : unpackExponent bits = -1#_
  · rw [if_pos full]
    by_cases empty : unpackMantissa bits = 0#_
    · rw [if_pos empty]
      exact iff_of_false Bool.false_ne_true (not_not_intro full)
    · rw [if_neg empty]
      exact iff_of_false Bool.false_ne_true (not_not_intro full)
  · rw [if_neg full]
    by_cases zero : unpackExponent bits = 0#_
    · rw [if_pos zero]
      by_cases empty : unpackMantissa bits = 0#_
      · rw [dif_pos empty]
        exact iff_of_true rfl full
      · rw [dif_neg empty]
        exact iff_of_true rfl full
    · rw [if_neg zero]
      exact iff_of_true rfl full

theorem exponent_small {n : Nat} {bits : BitVec n} (partly : bits ≠ -1#n) :
    bits.toNat < (BitVec.allOnes n).toNat := by
  have below := bits.isLt
  have range := BitVec.toNat_allOnes (v := n)
  rw [BitVec.neg_one_eq_allOnes] at partly
  have differ : bits.toNat ≠ (BitVec.allOnes n).toNat :=
    fun same => partly (BitVec.eq_of_toNat_eq same)
  omega

theorem isFinite_negated {spec : Format} (wide : 1 < spec.exponentBits)
    (bits : BitVec spec.numBits)
    (finite : (UnpackedFloat.unpack spec bits).isFinite = true) :
    (UnpackedFloat.unpack spec (pack spec (UnpackedFloat.unpack spec bits).neg)).isFinite =
      true := by
  have partly := (isFinite_unpack bits).mp finite
  have small := exponent_small partly
  rw [isFinite_unpack]
  change unpackExponent (pack spec (if unpackExponent bits = -1#_ then _
    else if unpackExponent bits = 0#_ then _ else _ : UnpackedFloat).neg) ≠ _
  rw [if_neg partly]
  by_cases zero : unpackExponent bits = 0#_
  · rw [if_pos zero]
    by_cases empty : unpackMantissa bits = 0#_
    · rw [dif_pos empty]
      change unpackExponent (packComponents spec _ 0 0) ≠ _
      rw [unpackExponent_packComponents]
      exact zero_ne_full spec.he
    · rw [dif_neg empty]
      apply exponent_pack
      have range := BitVec.toNat_allOnes (v := spec.exponentBits)
      have power := Nat.pow_lt_pow_right Nat.one_lt_two wide
      rw [zero, BitVec.toNat_ofNat, Nat.zero_mod]
      omega
  · rw [if_neg zero]
    apply exponent_pack
    omega

theorem isFinite_neg {x : Float} (finite : x.isFinite = true) : (-x).isFinite = true := by
  have negated : (Float.Model.neg x.toModel).isFinite = true :=
    @isFinite_negated .binary64 (by decide) x.toModel.toBits.toBitVec finite
  exact negated

end FloatSign

/-- Two numbers of one kind, the second the negation of the first. -/
inductive Value.Opposite : Value → Value → Prop
  | int {i j : Int64} (negates : Word.negate i = .ok j) : Opposite (.int i) (.int j)
  | float (x : Float) : Opposite (.float x) (.float (-x))

namespace Numeral

/-- The numeral behind a minus sign. -/
def negated (n : Numeral) : Numeral := { n with sign := ['-'], isSign := .inr (.inr rfl) }

theorem chars_negated {n : Numeral} (unsigned : n.sign = []) :
    n.negated.chars = '-' :: n.chars := by
  rw [chars, chars, unsigned]
  rfl

theorem exists_opposite {n : Numeral} (unsigned : n.sign = []) {v : Value}
    (inRange : n.value = some v) : ∃ v', n.negated.value = some v' ∧ v.Opposite v' := by
  rw [value, unsigned] at inRange
  change ∃ v', (if n.fraction = [] then Rule.integerValue ['-'] n.whole
    else Rule.floatValue ['-'] n.whole n.fraction) = some v' ∧ v.Opposite v'
  by_cases integral : n.fraction = []
  · rw [if_pos integral] at inRange ⊢
    rw [Rule.integerValue, Option.map_eq_some_iff] at inRange
    obtain ⟨i, denotes, rfl⟩ := inRange
    rw [if_neg (by decide)] at denotes
    have number := Word.toInt_of_ofInt? denotes
    have below : i.toInt < Word.bound := Int64.toInt_lt i
    have found : Word.ofInt? (-(Decimal.ofDigits n.whole : Int)) =
        some (Int64.ofInt (-(Decimal.ofDigits n.whole : Int))) := by
      have range : -Word.bound ≤ -(Decimal.ofDigits n.whole : Int) ∧
          -(Decimal.ofDigits n.whole : Int) < Word.bound := by
        have positive : 0 ≤ Word.bound := by decide
        omega
      rw [Word.ofInt?]
      exact if_pos range
    refine ⟨.int (Int64.ofInt (-(Decimal.ofDigits n.whole : Int))), ?_, .int ?_⟩
    · rw [Rule.integerValue]
      rw [if_pos rfl, found]
      rfl
    · rw [Word.negate, Word.exact_eq_ok_iff, number]
      exact Word.toInt_of_ofInt? found
  · rw [if_neg integral, Rule.floatValue] at inRange ⊢
    split at inRange
    · next finite =>
      cases inRange
      exact ⟨_, if_pos (FloatSign.isFinite_neg finite), .float _⟩
    · cases inRange

end Numeral

end Formulae
