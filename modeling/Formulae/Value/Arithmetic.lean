import Formulae.Number.Rounding
import Formulae.Number.Word
import Formulae.Value.Display

/-!
Arithmetic on values.

An operation has no answer for operands it does not apply to, and a fault for
integers whose result is not a word. Two integers stay integral; an integer beside
a float is widened. Vectors of one size and colors combine component by component,
and a number scales one of them.
-/

namespace Formulae.Value

/-- The outcome of an operation: a fault, a value, or `none` if it does not apply. -/
abbrev Answer := Except Fault (Option Value)

/-- Two numbers as doubles. -/
def widened (op : Float → Float → Float) (a b : Value) : Option Value := do
  let x ← a.asFloat?
  let y ← b.asFloat?
  return float (op x y)

/-- Two integers through `onWords`, other pairs of numbers as doubles. -/
def numeric (onWords : Int64 → Int64 → Except Fault Int64) (op : Float → Float → Float)
    (a b : Value) : Answer :=
  match a, b with
  | int i, int j => (onWords i j).map (some ∘ int)
  | _, _ => .ok (widened op a b)

/-- Vectors of one size and colors, component by component. -/
def componentwise (op : Float → Float → Float) : Value → Value → Option Value
  | vector2 v, vector2 w => some (vector2 (v.zipWith op w))
  | vector3 v, vector3 w => some (vector3 (v.zipWith op w))
  | vector4 v, vector4 w => some (vector4 (v.zipWith op w))
  | color c, color d => some (color (c.zip op d))
  | _, _ => none

/-- A vector or color on the left, a number on the right. -/
def scaled (op : Float → Float → Float) (a b : Value) : Option Value := do
  let s ← b.asFloat?
  match a with
  | vector2 v => return vector2 (v.map (op · s))
  | vector3 v => return vector3 (v.map (op · s))
  | vector4 v => return vector4 (v.map (op · s))
  | color c => return color (c.map (op · s))
  | _ => none

/-- The product of two quaternions. -/
def hamilton (p q : Vector Float 4) : Vector Float 4 :=
  let (x, y, z, w) := (p[0], p[1], p[2], p[3])
  let (x', y', z', w') := (q[0], q[1], q[2], q[3])
  #v[w * x' + x * w' + y * z' - z * y',
    w * y' - x * z' + y * w' + z * x',
    w * z' + x * y' - y * x' + z * w',
    w * w' - x * x' - y * y' - z * z']

/-- Text joins with any value that is not absent, and lists join. -/
def concatenated : Value → Value → Option Value
  | list vs, list ws => some (list (vs ++ ws))
  | string s, b => if b.isEmpty then none else some (string (s ++ b.text))
  | a, string t => if a.isEmpty then none else some (string (a.text ++ t))
  | _, _ => none

/-- The first of several ways that applies. -/
def orElse (first : Answer) (next : Option Value) : Answer :=
  first.map fun answer => answer <|> next

def add (a b : Value) : Answer :=
  orElse (numeric Word.add (· + ·) a b) (componentwise (· + ·) a b <|> concatenated a b)

def subtract (a b : Value) : Answer :=
  orElse (numeric Word.subtract (· - ·) a b) (componentwise (· - ·) a b)

def multiply (a b : Value) : Answer :=
  match a, b with
  | quaternion p, quaternion q => .ok (some (quaternion (hamilton p q)))
  | _, _ => orElse (numeric Word.multiply (· * ·) a b)
      (componentwise (· * ·) a b <|> scaled (· * ·) a b <|> scaled (· * ·) b a)

def divide (a b : Value) : Answer :=
  orElse (numeric Word.divide (· / ·) a b) (componentwise (· / ·) a b <|> scaled (· / ·) a b)

def modulo (a b : Value) : Answer := numeric Word.remainder Rounding.remainder a b

/-- A power of integers is integral unless the exponent is negative. -/
def exponent (a b : Value) : Answer :=
  match a, b with
  | int base, int e =>
    if 0 ≤ e.toInt then (Word.power base e.toInt.toNat).map (some ∘ int)
    else .ok (some (float ((widen base).pow (widen e))))
  | _, _ => .ok (widened Float.pow a b)

def negate : Value → Answer
  | int i => (Word.negate i).map (some ∘ int)
  | float x => .ok (some (float (-x)))
  | vector2 v => .ok (some (vector2 (v.map (- ·))))
  | vector3 v => .ok (some (vector3 (v.map (- ·))))
  | vector4 v => .ok (some (vector4 (v.map (- ·))))
  | _ => .ok none

end Formulae.Value
