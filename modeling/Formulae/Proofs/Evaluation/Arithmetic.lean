import Formulae.Evaluation.Operation
import Formulae.Proofs.Number.Power

/-!
Arithmetic on integers.

An operation answers with the integer of mathematics where a word denotes it, and overflows where
none does; operators return the one and report the other. A remainder is refused together with
its quotient, and a power together with an exponent that is not computed with.
-/

namespace Formulae.Operation

open Value

/-- An operation on integers and the operator that uses it are exact: they return the integer if it
is a word, and overflow if it is not. -/
structure Exact (symbol : String) (answer : Answer) (result : Except EvalError Value) (i : Int) :
    Prop where
  inside : -9223372036854775808 ≤ i → i ≤ 9223372036854775807 →
    ∃ w : Int64, w.toInt = i ∧ answer = .ok (some (int w)) ∧ result = .ok (int w)
  outside : i < -9223372036854775808 ∨ 9223372036854775807 < i →
    answer = .error .overflow ∧ result = .error (.arithmetic symbol .overflow)

/-- An operation has a fault, and the operator that uses it reports the fault. -/
structure Faults (symbol : String) (answer : Answer) (result : Except EvalError Value)
    (fault : Fault) : Prop where
  answers : answer = .error fault
  reports : result = .error (.arithmetic symbol fault)

/-- The quotient truncated toward zero, and the remainder, which has the sign of the dividend. -/
structure Truncated (a b quotient remainder : Int) : Prop where
  whole : a = quotient * b + remainder
  smaller : remainder.natAbs < b.natAbs
  signed : remainder ≠ 0 → remainder.sign = a.sign

theorem truncated_tdiv_tmod {a b : Int} (nonzero : b ≠ 0) :
    Truncated a b (a.tdiv b) (a.tmod b) where
  whole := (Int.tdiv_mul_add_tmod a b).symm
  smaller := by
    rw [Int.natAbs_tmod]
    exact Nat.mod_lt _ (Int.natAbs_pos.mpr nonzero)
  signed differs := by
    rw [Int.sign_tmod, if_neg fun divides => differs (Int.tmod_eq_zero_of_dvd divides)]

/-- The answer of an operation on words, as a value. -/
def answerOf (outcome : Except Fault Int64) : Answer := outcome.map (some ∘ int)

theorem Exact.of_answer {symbol : String} {operands : List Value} {answer : Answer}
    {result : Except EvalError Value} {i : Int} (answers : answer = answerOf (Word.exact i))
    (settles : result = settle symbol operands answer) : Exact symbol answer result i := by
  subst answers settles
  constructor
  · intro lower upper
    obtain ⟨w, rfl⟩ := Word.exists_of_holds ⟨lower, Int.lt_of_le_sub_one upper⟩
    refine ⟨w, rfl, ?_⟩
    rw [Word.exact_toInt]
    exact ⟨rfl, rfl⟩
  · intro outside
    have missing : ¬ Word.Holds i := by
      unfold Word.Holds Word.bound
      omega
    rw [Word.exact_of_not_holds missing]
    exact ⟨rfl, rfl⟩

theorem Faults.of_answer {symbol : String} {operands : List Value} {answer : Answer}
    {result : Except EvalError Value} {fault : Fault} (answers : answer = .error fault)
    (settles : result = settle symbol operands answer) : Faults symbol answer result fault := by
  refine ⟨answers, ?_⟩
  rw [settles, answers]
  rfl

/-- What an operation does with words is not put to another way. -/
theorem orElse_answerOf (outcome : Except Fault Int64) (next : Option Value) :
    orElse (answerOf outcome) next = answerOf outcome := by
  cases outcome with
  | ok w => rfl
  | error fault => rfl

theorem add_int (a b : Int64) :
    (int a).add (int b) = answerOf (Word.exact (a.toInt + b.toInt)) := orElse_answerOf ..

theorem subtract_int (a b : Int64) :
    (int a).subtract (int b) = answerOf (Word.exact (a.toInt - b.toInt)) := orElse_answerOf ..

theorem multiply_int (a b : Int64) :
    (int a).multiply (int b) = answerOf (Word.exact (a.toInt * b.toInt)) := orElse_answerOf ..

theorem divide_int (a b : Int64) : (int a).divide (int b) = answerOf (Word.divide a b) :=
  orElse_answerOf ..

theorem modulo_int (a b : Int64) : (int a).modulo (int b) = answerOf (Word.remainder a b) := rfl

theorem exponent_int {base e : Int64} (nonneg : 0 ≤ e.toInt) :
    (int base).exponent (int e) = answerOf (Word.power base e.toInt.toNat) := if_pos nonneg

/-- The one quotient of words that is no word. -/
theorem quotient_holds {a b : Int64} (fits : ¬ (a = Int64.minValue ∧ b = -1)) :
    Word.Holds (a.toInt.tdiv b.toInt) := by
  by_contra outside
  have range := Word.holds_toInt a
  have bounded := Int.natAbs_tdiv_le_natAbs a.toInt b.toInt
  unfold Word.Holds Word.bound at *
  have quotient : a.toInt.tdiv b.toInt = 9223372036854775808 := by omega
  have least : a.toInt = -9223372036854775808 := by omega
  have one : b.toInt.natAbs = 1 := by
    have same := Int.natAbs_tdiv a.toInt b.toInt
    rw [quotient, least] at same
    exact (Nat.div_eq_self.mp same.symm).resolve_left (by decide)
  have differs : b.toInt ≠ 1 := by
    intro one
    rw [one, Int.tdiv_one, least] at quotient
    exact absurd quotient (by decide)
  apply fits
  constructor
  · exact Int64.toInt_inj.mp least
  · exact Int64.toInt_inj.mp (show b.toInt = -1 by omega)

/-- Sums, differences, products and quotients of integers are exact, and so are remainders but
for the one whose quotient is no word: this remainder is refused with the quotient. -/
theorem integers_exact (a b : Int64) :
    Exact "+" ((int a).add (int b)) (binary .add (int a) (int b)) (a.toInt + b.toInt) ∧
    Exact "-" ((int a).subtract (int b)) (binary .subtract (int a) (int b)) (a.toInt - b.toInt) ∧
    Exact "*" ((int a).multiply (int b)) (binary .multiply (int a) (int b)) (a.toInt * b.toInt) ∧
    Exact "-" (int a).negate (negate (int a)) (-a.toInt) ∧
    (b = 0 →
      Faults "/" ((int a).divide (int b)) (binary .divide (int a) (int b)) .divisionByZero ∧
      Faults "%" ((int a).modulo (int b)) (binary .modulo (int a) (int b)) .divisionByZero) ∧
    (b ≠ 0 → ∃ quotient remainder : Int, Truncated a.toInt b.toInt quotient remainder ∧
      Exact "/" ((int a).divide (int b)) (binary .divide (int a) (int b)) quotient ∧
      (¬ (a = Int64.minValue ∧ b = -1) →
        Exact "%" ((int a).modulo (int b)) (binary .modulo (int a) (int b)) remainder) ∧
      (a = Int64.minValue ∧ b = -1 →
        Faults "%" ((int a).modulo (int b)) (binary .modulo (int a) (int b)) .overflow)) := by
  refine ⟨.of_answer (add_int a b) rfl, .of_answer (subtract_int a b) rfl,
    .of_answer (multiply_int a b) rfl, .of_answer rfl rfl, fun zero => ?_, fun nonzero => ?_⟩
  · have divides : Word.divide a b = .error .divisionByZero := if_pos zero
    constructor
    · exact .of_answer (by rw [divide_int, divides]; rfl) rfl
    · exact .of_answer (by rw [modulo_int, Word.remainder, divides]; rfl) rfl
  · have divides : Word.divide a b = Word.exact (a.toInt.tdiv b.toInt) := if_neg nonzero
    have differs : b.toInt ≠ 0 := fun zero => nonzero (Int64.toInt_inj.mp zero)
    refine ⟨_, _, truncated_tdiv_tmod differs, .of_answer (by rw [divide_int, divides]) rfl,
      fun fits => .of_answer ?_ rfl, ?_⟩
    · obtain ⟨q, same⟩ := Word.exists_of_holds (quotient_holds fits)
      rw [modulo_int, Word.remainder, divides, ← same, Word.exact_toInt]
      rfl
    · rintro ⟨rfl, rfl⟩
      exact ⟨rfl, rfl⟩

/-- Half of a negative odd number. -/
theorem integers_exact_of_half : (2 : Int64) ≠ 0 ∧ ∃ quotient remainder : Int,
    Truncated (-7) 2 quotient remainder ∧
    Exact "/" ((int (-7)).divide (int 2)) (binary .divide (int (-7)) (int 2)) quotient ∧
    Exact "%" ((int (-7)).modulo (int 2)) (binary .modulo (int (-7)) (int 2)) remainder := by
  obtain ⟨_, _, _, _, _, divides⟩ := integers_exact (-7) 2
  obtain ⟨quotient, remainder, truncated, quotients, remainders, _⟩ := divides (by decide)
  exact ⟨by decide, quotient, remainder, truncated, quotients, remainders (by decide)⟩

/-- The least integer leaves no remainder by -1, and yet there is no answer. -/
theorem remainder_refused_with_quotient :
    Truncated Int64.minValue.toInt (-1) 9223372036854775808 0 ∧
    ¬ Exact "%" ((int Int64.minValue).modulo (int (-1)))
      (binary .modulo (int Int64.minValue) (int (-1))) 0 := by
  refine ⟨⟨by decide, by decide, fun differs => absurd rfl differs⟩, fun exact => ?_⟩
  obtain ⟨w, _, answers, _⟩ := exact.inside (by decide) (by decide)
  cases answers

/-- The words whose powers stay small. -/
theorem mem_small_iff {base : Int64} : base ∈ [0, 1, -1] ↔ base.toInt.natAbs ≤ 1 := by
  simp only [List.mem_cons, List.not_mem_nil, or_false, ← Int64.toInt_inj]
  change base.toInt = 0 ∨ base.toInt = 1 ∨ base.toInt = -1 ↔ _
  omega

/-- Powers of integers are exact, unless the exponent is not computed with and the base is one of
the three whose powers stay small: such a power is a word, and is reported to overflow. -/
theorem integer_powers_exact (base e : Int64) (nonneg : 0 ≤ e.toInt) :
    (e.toInt ≤ 4294967295 ∨ base ∉ [0, 1, -1] →
      Exact "^" ((int base).exponent (int e)) (binary .exponent (int base) (int e))
        (base.toInt ^ e.toInt.toNat)) ∧
    (4294967295 < e.toInt ∧ base ∈ [0, 1, -1] →
      Word.Holds (base.toInt ^ e.toInt.toNat) ∧
      Faults "^" ((int base).exponent (int e)) (binary .exponent (int base) (int e)) .overflow) := by
  constructor
  · intro fits
    refine .of_answer ?_ rfl
    have fits' : e.toInt.toNat ≤ Word.maxExponent ∨ 1 < base.toInt.natAbs := by
      unfold Word.maxExponent
      rw [mem_small_iff] at fits
      omega
    rw [exponent_int nonneg, Word.power_eq_exact fits']
  · rintro ⟨wide, small⟩
    refine ⟨Word.holds_pow (mem_small_iff.mp small) _, .of_answer ?_ rfl⟩
    rw [exponent_int nonneg, Word.power, if_pos (by unfold Word.maxExponent; omega)]
    rfl

/-- The greatest power of three that is a word, the next one, and a power of one. -/
theorem integer_powers_exact_of_three :
    (0 ≤ (40 : Int64).toInt ∧
      Exact "^" ((int 3).exponent (int 39)) (binary .exponent (int 3) (int 39))
        4052555153018976267 ∧
      Exact "^" ((int 3).exponent (int 40)) (binary .exponent (int 3) (int 40))
        12157665459056928801) ∧
    Faults "^" ((int 1).exponent (int 4294967296)) (binary .exponent (int 1) (int 4294967296))
      .overflow :=
  ⟨⟨by decide, (integer_powers_exact 3 39 (by decide)).1 (.inl (by decide)),
    (integer_powers_exact 3 40 (by decide)).1 (.inl (by decide))⟩,
    ((integer_powers_exact 1 4294967296 (by decide)).2 (by decide)).2⟩

end Formulae.Operation
