import Formulae.Number.Shortest

/-!
Decimal text of numbers.

Digits are read without a limit on their number. A binary number is written with
its shortest digits, in positional notation throughout: no exponent, and no point
behind a whole number.
-/

namespace Formulae.Decimal

/-- The number that a run of decimal digits denotes. -/
def ofDigits (digits : List Char) : Nat :=
  digits.foldl (fun n c => 10 * n + (c.toNat - '0'.toNat)) 0

/-- The double nearest to the decimal `whole.fraction`. -/
def toFloat (negative : Bool) (whole fraction : List Char) : Float :=
  let x := Float.ofScientific (ofDigits (whole ++ fraction)) true fraction.length
  if negative then -x else x

/-- The text of `digits * 10 ^ place`. -/
def layout (digits : Nat) (place : Int) : List Char :=
  let ds := Nat.toDigits 10 digits
  if 0 ≤ place then
    ds ++ List.replicate (if digits = 0 then 0 else place.toNat) '0'
  else
    let places := (-place).toNat
    let padded := List.replicate (places + 1 - ds.length) '0' ++ ds
    padded.take (padded.length - places) ++ '.' :: padded.drop (padded.length - places)

def write (f : Binary.Format) : Binary.Parts → String
  | .nan => "NaN"
  | .infinite negative => if negative then "-inf" else "inf"
  | .finite negative significand exponent =>
    let (digits, place) := Shortest.decimal f significand exponent
    let text := layout digits place
    String.ofList (if negative then '-' :: text else text)

def ofFloat (x : Float) : String := write .double (Binary.ofFloat x)

def ofFloat32 (x : Float32) : String := write .single (Binary.ofFloat32 x)

end Formulae.Decimal
