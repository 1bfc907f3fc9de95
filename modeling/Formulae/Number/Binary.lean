/-!
Binary floating-point numbers as exact dyadic rationals.

`Format.parts` reads the bit pattern of a format and says which number it
stands for: a finite one is `significand * 2 ^ exponent` with a sign.
-/

namespace Formulae.Binary

/-- The field widths of an interchange format. -/
structure Format where
  fractionBits : Nat
  exponentBits : Nat

def Format.double : Format := ⟨52, 11⟩

def Format.single : Format := ⟨23, 8⟩

/-- What a bit pattern stands for. -/
inductive Parts where
  | nan
  | infinite (negative : Bool)
  | finite (negative : Bool) (significand : Nat) (exponent : Int)
  deriving DecidableEq, Repr

/-- The power of two that the last place of a subnormal number counts. -/
def Format.leastExponent (f : Format) : Int :=
  2 - Nat.pow 2 (f.exponentBits - 1) - f.fractionBits

/-- The least significand of a number that is not subnormal. -/
def Format.normal (f : Format) : Nat := Nat.pow 2 f.fractionBits

def Format.parts (f : Format) (bits : Nat) : Parts :=
  let fields := Nat.pow 2 f.exponentBits
  let fraction := bits % f.normal
  let field := bits / f.normal % fields
  let negative := bits / f.normal / fields % 2 = 1
  if field = fields - 1 then
    if fraction = 0 then .infinite negative else .nan
  else if field = 0 then
    .finite negative fraction f.leastExponent
  else
    .finite negative (f.normal + fraction) (f.leastExponent + field - 1)

/-- The parts of a double-precision number. -/
def ofFloat (x : Float) : Parts := Format.double.parts x.toBits.toNat

/-- The parts of a single-precision number. -/
def ofFloat32 (x : Float32) : Parts := Format.single.parts x.toBits.toNat

/-- The double nearest to `significand * 2 ^ exponent`. -/
def toFloat (significand : Nat) (exponent : Int) : Float :=
  if 0 ≤ exponent then
    .ofScientific (significand * Nat.pow 2 exponent.toNat) false 0
  else
    .ofScientific (significand * Nat.pow 5 (-exponent).toNat) true (-exponent).toNat

end Formulae.Binary
