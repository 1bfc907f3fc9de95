import Formulae.Number.Word
import Mathlib.Tactic.Linarith
import Mathlib.Tactic.Positivity

/-!
Powers of words by repeated squaring.

No product on the way to a power fails to be a word unless the power does. What is left to be
multiplied with the accumulator is a power of a square and so is positive, and a product that is no
word stays none. A square that is no word may still meet a negative accumulator, but no square is
`bound`, the one integer that a change of sign would make a word.
-/

namespace Formulae.Word

/-- Some word denotes the integer. -/
def Holds (i : Int) : Prop := -bound ≤ i ∧ i < bound

instance (i : Int) : Decidable (Holds i) := inferInstanceAs (Decidable (_ ∧ _))

theorem holds_toInt (w : Int64) : Holds w.toInt := ⟨Int64.le_toInt w, Int64.toInt_lt w⟩

@[simp] theorem exact_toInt (w : Int64) : exact w.toInt = .ok w := exact_eq_ok_iff.mpr rfl

theorem exists_of_holds {i : Int} (holds : Holds i) : ∃ w : Int64, w.toInt = i :=
  ⟨.ofInt i, Int64.toInt_ofInt_of_le holds.1 holds.2⟩

theorem exact_of_not_holds {i : Int} (outside : ¬ Holds i) : exact i = .error .overflow := by
  apply exact_eq_error_iff.mpr
  unfold Holds at outside
  exact ⟨rfl, by omega⟩

theorem not_holds_mul {i k : Int} (outside : ¬ Holds i) (positive : 0 < k) : ¬ Holds (i * k) := by
  intro holds
  apply outside
  unfold Holds bound at *
  constructor
  · by_contra below
    nlinarith
  · by_contra above
    nlinarith

theorem mul_self_ne_bound (b : Int) : b * b ≠ bound := by
  intro square
  unfold bound at square
  have lower : 3037000499 < |b| := by
    by_contra small
    nlinarith [abs_mul_abs_self b, abs_nonneg b]
  nlinarith [abs_mul_abs_self b]

theorem not_holds_mul_pow {a b : Int} {n : Nat} (nonzero : a ≠ 0) (outside : ¬ Holds (b * b))
    (positive : 0 < n) : ¬ Holds (a * (b * b) ^ n) := by
  have square : 0 ≤ b * b := mul_self_nonneg b
  have beyond : bound < b * b := by
    have differs := mul_self_ne_bound b
    unfold Holds bound at *
    omega
  have power : b * b ≤ (b * b) ^ n :=
    le_self_pow₀ (by unfold bound at beyond; omega) positive.ne'
  intro ⟨lower, upper⟩
  rcases lt_or_gt_of_ne nonzero with negative | positive
  · nlinarith
  · nlinarith

theorem absorb_eq_exact (acc base : Int64) (exponent : Nat) :
    absorb acc base exponent = exact (acc.toInt * base.toInt ^ (exponent % 2)) := by
  unfold absorb
  by_cases odd : exponent % 2 = 1
  · rw [if_pos odd, odd, pow_one, multiply]
  · have even : exponent % 2 = 0 := by omega
    rw [if_neg odd, even, pow_zero, mul_one, exact_toInt]

theorem holds_absorbed_of_zero {acc base : Int64} {exponent : Nat} (zero : base.toInt = 0) :
    Holds (acc.toInt * base.toInt ^ (exponent % 2)) := by
  rcases Nat.mod_two_eq_zero_or_one exponent with even | odd
  · rw [even, pow_zero, mul_one]
    exact holds_toInt acc
  · rw [odd, pow_one, zero, mul_zero]
    decide

theorem mul_pow_mod_two (a b : Int) (exponent : Nat) :
    a * b ^ (exponent % 2) * (b * b) ^ (exponent / 2) = a * b ^ exponent := by
  rw [← pow_two, ← pow_mul, mul_assoc, ← pow_add, Nat.mod_add_div]

/-- Going on with the square of the base. An accumulator of zero would make the power a word also
where the square is none. -/
theorem raise_square {acc base : Int64} {n : Nat} (live : acc.toInt ≠ 0 ∨ base.toInt = 0)
    (positive : 0 < n) (again : ∀ base' : Int64, (acc.toInt ≠ 0 ∨ base'.toInt = 0) →
      raise acc base' n = exact (acc.toInt * base'.toInt ^ n)) :
    (do raise acc (← multiply base base) n) =
      exact (acc.toInt * (base.toInt * base.toInt) ^ n) := by
  by_cases square : Holds (base.toInt * base.toInt)
  · obtain ⟨base', same⟩ := exists_of_holds square
    have live' : acc.toInt ≠ 0 ∨ base'.toInt = 0 :=
      live.imp_right fun zero => by rw [same, zero, mul_zero]
    rw [multiply, ← same, exact_toInt, ← again base' live']
    rfl
  · have nonzero : base.toInt ≠ 0 := by
      intro zero
      rw [zero] at square
      exact square (by decide)
    have outside := not_holds_mul_pow (live.resolve_right nonzero) square positive
    rw [multiply, exact_of_not_holds square, exact_of_not_holds outside]
    rfl

/-- Repeated squaring overflows if and only if the power is no word. -/
theorem raise_eq_exact (acc base : Int64) (exponent : Nat)
    (live : acc.toInt ≠ 0 ∨ base.toInt = 0) :
    raise acc base exponent = exact (acc.toInt * base.toInt ^ exponent) := by
  induction exponent using Nat.strongRecOn generalizing acc base with
  | ind exponent inductionHypothesis =>
    rw [raise, absorb_eq_exact, ← mul_pow_mod_two acc.toInt base.toInt exponent]
    by_cases factor : Holds (acc.toInt * base.toInt ^ (exponent % 2))
    · obtain ⟨acc', same⟩ := exists_of_holds factor
      have live' : acc'.toInt ≠ 0 ∨ base.toInt = 0 := by
        by_cases zero : base.toInt = 0
        · exact .inr zero
        · rw [same]
          exact .inl (mul_ne_zero (live.resolve_right zero) (pow_ne_zero _ zero))
      rw [← same, exact_toInt]
      by_cases more : 1 < exponent
      · rw [← raise_square live' (by omega) fun base' =>
          inductionHypothesis (exponent / 2) (by omega) acc' base']
        exact dif_pos more
      · have none : exponent / 2 = 0 := by omega
        rw [none, pow_zero, mul_one, exact_toInt]
        exact dif_neg more
    · have nonzero : base.toInt ≠ 0 := fun zero => factor (holds_absorbed_of_zero zero)
      have rest : 0 < (base.toInt * base.toInt) ^ (exponent / 2) :=
        pow_pos (mul_self_pos.mpr nonzero) _
      rw [exact_of_not_holds factor, exact_of_not_holds (not_holds_mul factor rest)]
      rfl

theorem not_holds_pow {b : Int} {exponent : Nat} (large : 1 < b.natAbs) (enough : 64 ≤ exponent) :
    ¬ Holds (b ^ exponent) := by
  intro holds
  have least : 2 ^ 64 ≤ (b ^ exponent).natAbs := by
    rw [Int.natAbs_pow]
    calc 2 ^ 64 ≤ 2 ^ exponent := Nat.pow_le_pow_right (by decide) enough
      _ ≤ b.natAbs ^ exponent := Nat.pow_le_pow_left large exponent
  unfold Holds bound at holds
  omega

theorem holds_pow {b : Int} (small : b.natAbs ≤ 1) (exponent : Nat) : Holds (b ^ exponent) := by
  have most : (b ^ exponent).natAbs ≤ 1 := by
    rw [Int.natAbs_pow]
    exact pow_le_one₀ (Nat.zero_le _) small
  unfold Holds bound
  omega

/-- Powers are exact as far as exponents are computed with. A greater exponent is a mistake for
the bases only whose powers stay small. -/
theorem power_eq_exact {base : Int64} {exponent : Nat}
    (narrow : exponent ≤ maxExponent ∨ 1 < base.toInt.natAbs) :
    power base exponent = exact (base.toInt ^ exponent) := by
  by_cases computed : exponent ≤ maxExponent
  · have one : (1 : Int64).toInt = 1 := by decide
    rw [power, if_neg (Nat.not_lt.mpr computed), raise_eq_exact _ _ _ (.inl (by decide)), one,
      one_mul]
  · have outside : ¬ Holds (base.toInt ^ exponent) :=
      not_holds_pow (narrow.resolve_left computed) (by unfold maxExponent at computed; omega)
    rw [power, if_pos (Nat.lt_of_not_le computed), exact_of_not_holds outside]

end Formulae.Word
