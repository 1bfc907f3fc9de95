/-!
Exact arithmetic on 64-bit signed words.

An operation returns the mathematical result when a word holds it, and a fault
otherwise; nothing wraps. A remainder is refused together with its quotient.
-/

namespace Formulae

/-- Why an integer operation has no result. -/
inductive Fault where
  | divisionByZero
  | overflow
  deriving DecidableEq, Repr

def Fault.message : Fault → String
  | .divisionByZero => "division by zero"
  | .overflow => "integer overflow"

namespace Word

/-- The words denote the integers from `-bound` up to and without `bound`. -/
def bound : Int := 9223372036854775808

/-- The word that denotes `i`, if there is one. -/
def ofInt? (i : Int) : Option Int64 :=
  if -bound ≤ i ∧ i < bound then some (Int64.ofInt i) else none

theorem toInt_of_ofInt? {i : Int} {w : Int64} (h : ofInt? i = some w) : w.toInt = i := by
  unfold ofInt? at h
  split at h
  · next range =>
    cases h
    exact Int64.toInt_ofInt_of_le range.1 range.2
  · cases h

@[simp] theorem ofInt?_toInt (w : Int64) : ofInt? w.toInt = some w := by
  rw [ofInt?, if_pos ⟨Int64.le_toInt w, Int64.toInt_lt w⟩, Int64.ofInt_toInt]

theorem ofInt?_eq_some_iff {i : Int} {w : Int64} : ofInt? i = some w ↔ w.toInt = i :=
  ⟨toInt_of_ofInt?, by rintro rfl; simp⟩

theorem ofInt?_eq_none_iff {i : Int} : ofInt? i = none ↔ i < -bound ∨ bound ≤ i := by
  unfold ofInt?
  split <;> simp <;> omega

/-- The word that denotes `i`, or an overflow. -/
def exact (i : Int) : Except Fault Int64 :=
  match ofInt? i with
  | some w => .ok w
  | none => .error .overflow

theorem exact_eq_ok_iff {i : Int} {w : Int64} : exact i = .ok w ↔ w.toInt = i := by
  unfold exact
  split
  · next found => rw [← ofInt?_eq_some_iff, found]; simp
  · next missing => rw [← ofInt?_eq_some_iff, missing]; simp

theorem exact_eq_error_iff {i : Int} {fault : Fault} :
    exact i = .error fault ↔ fault = .overflow ∧ (i < -bound ∨ bound ≤ i) := by
  rw [← ofInt?_eq_none_iff]
  unfold exact
  split
  · next found => simp [found]
  · next missing => simp [missing, eq_comm]

def add (a b : Int64) : Except Fault Int64 := exact (a.toInt + b.toInt)

def subtract (a b : Int64) : Except Fault Int64 := exact (a.toInt - b.toInt)

def multiply (a b : Int64) : Except Fault Int64 := exact (a.toInt * b.toInt)

def negate (a : Int64) : Except Fault Int64 := exact (-a.toInt)

def magnitude (a : Int64) : Except Fault Int64 := exact a.toInt.natAbs

/-- The quotient, truncated toward zero. -/
def divide (a b : Int64) : Except Fault Int64 :=
  if b = 0 then .error .divisionByZero else exact (a.toInt.tdiv b.toInt)

/-- What the truncated quotient leaves; it has the sign of `a`. -/
def remainder (a b : Int64) : Except Fault Int64 := do
  let _ ← divide a b
  exact (a.toInt.tmod b.toInt)

/-- The largest exponent a power of words is computed for. -/
def maxExponent : Nat := 4294967295

/-- The accumulator with the factor that an odd exponent asks for. -/
def absorb (acc base : Int64) (exponent : Nat) : Except Fault Int64 :=
  if exponent % 2 = 1 then multiply acc base else .ok acc

/-- `acc * base ^ exponent` by repeated squaring. Every product on the way has to be a word; a
square that no factor needs any more is not computed. -/
def raise (acc base : Int64) (exponent : Nat) : Except Fault Int64 := do
  let acc ← absorb acc base exponent
  if more : 1 < exponent then raise acc (← multiply base base) (exponent / 2) else return acc

def power (base : Int64) (exponent : Nat) : Except Fault Int64 :=
  if maxExponent < exponent then .error .overflow else raise 1 base exponent

end Word

end Formulae
