import Formulae.Value.Basic

/-!
Names whose value a host computes anew each time it is read.
-/

namespace Formulae

/-- A source of values, one for each time it is read. -/
structure Provider where
  index : Nat
  /-- The value of reading for the `n`th time, counted from zero. -/
  value : Nat → Value

namespace Provider

/-- Gives the values in turn, and starts over after the last. -/
def cycle (index : Nat) (values : List Value) : Provider :=
  ⟨index, fun n => (values[n % values.length]?).getD .empty⟩

/-- Gives one value every time. -/
def constant (index : Nat) (value : Value) : Provider := ⟨index, fun _ => value⟩

end Provider

end Formulae
