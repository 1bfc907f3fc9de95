import Formulae.Number.Binary

/-!
The shortest decimal that reads back as a given binary number.

A number stands for every real that rounds to it. Among the decimal grids
`10 ^ place` the coarsest one with a point in that interval is taken, and on it
the point nearest to the number; of two equally near points the larger.
-/

namespace Formulae.Shortest

open Binary

/-- The reals that round to one number: an interval around `value` whose ends
belong to it or not. -/
structure Interval where
  low : Rat
  value : Rat
  high : Rat
  closed : Bool

def Interval.Contains (i : Interval) (x : Rat) : Prop :=
  i.low < x ∧ x < i.high ∨ i.closed = true ∧ (x = i.low ∨ x = i.high)

instance (i : Interval) (x : Rat) : Decidable (i.Contains x) :=
  inferInstanceAs (Decidable (_ ∨ _))

/-- Half a unit in the last place to either side, and a quarter below a power of
two, where the neighbour is nearer. A tie rounds to the even significand. -/
def Interval.around (f : Format) (significand : Nat) (exponent : Int) : Interval :=
  let unit : Rat := 2 ^ (exponent - 2)
  let narrow := significand = f.normal ∧ exponent ≠ f.leastExponent
  { low := (4 * significand - if narrow then 1 else 2) * unit
    value := 4 * significand * unit
    high := (4 * significand + 2) * unit
    closed := significand % 2 = 0 }

/-- The nearest multiple of `10 ^ place` in the interval, as a multiplier. -/
def Interval.nearestOn (i : Interval) (place : Int) : Option Nat :=
  let unit : Rat := 10 ^ place
  let below := (i.value / unit).floor.toNat
  let isBelow := i.Contains (below * unit)
  let isAbove := i.Contains ((below + 1 : Nat) * unit)
  if isBelow ∧ (isAbove → i.value - below * unit < (below + 1 : Nat) * unit - i.value) then some below
  else if isAbove then some (below + 1)
  else none

/-- The first grid with a hit, from `place` downward. -/
def Interval.coarsest (i : Interval) (place : Int) : Nat → Nat × Int
  | 0 => (0, 0)
  | tries + 1 =>
    match i.nearestOn place with
    | some digits => (digits, place)
    | none => i.coarsest (place - 1) tries

/-- The shortest decimal `digits * 10 ^ place` of `significand * 2 ^ exponent`.
The search starts one place above the leading digit of the number. -/
def decimal (f : Format) (significand : Nat) (exponent : Int) : Nat × Int :=
  if significand = 0 then (0, 0)
  else
    let bits := significand.log2 + 1 + exponent
    (Interval.around f significand exponent).coarsest (bits * 30103 / 100000 + 1) 24

end Formulae.Shortest
