import Formulae.Number.Binary

/-!
Operations on double-precision numbers that keep the number exact or move it to a
neighbour: rounding to a whole number, the remainder of a truncated division, and
choosing between two numbers.
-/

namespace Formulae.Rounding

open Binary

/-- Whether the sign bit is set. -/
def isNegative (x : Float) : Bool := 9223372036854775808 ≤ x.toBits.toNat

/-- The nearest whole number, a half going to the even neighbour. Adding `2 ^ 52`
leaves no room for a fraction, so the sum is rounded to a whole number. -/
def halfEven (x : Float) : Float :=
  let limit : Float := 4503599627370496
  if x.abs < limit then
    let whole := (x.abs + limit) - limit
    if isNegative x then -whole else whole
  else x

/-- What a quotient truncated toward zero leaves of `x`, exactly; it has the sign
of `x`. -/
def remainder (x y : Float) : Float :=
  match ofFloat x, ofFloat y with
  | .finite negative a p, .finite _ b q =>
    if b = 0 then 0 / 0
    else
      let unit := min p q
      let rest := (a * Nat.pow 2 (p - unit).toNat) % (b * Nat.pow 2 (q - unit).toNat)
      let z := toFloat rest unit
      if negative then -z else z
  | .finite .., .infinite _ => x
  | _, _ => 0 / 0

/-- The word a whole number denotes, if it has one. -/
def toWord? (x : Float) : Option Int64 :=
  if (-9223372036854775808 : Float) ≤ x ∧ x < (9223372036854775808 : Float) then some x.toInt64
  else none

/-- The larger number; a number wins over `NaN`. -/
def larger (a b : Float) : Float :=
  if a.isNaN then b else if a < b then b else a

/-- The smaller number; a number wins over `NaN`. -/
def smaller (a b : Float) : Float :=
  if a.isNaN then b else if b < a then b else a

end Formulae.Rounding
