import Formulae.Value.Basic

/-!
Order and equality of values.

Numbers compare by value across the two kinds of number, texts by code points,
references by what they refer to. `NaN` is not ordered and not equal to itself.
-/

namespace Formulae.Value

/-- The order of two doubles; `none` beside `NaN`. -/
def compareFloats? (x y : Float) : Option Ordering :=
  if x < y then some .lt else if y < x then some .gt else if x == y then some .eq else none

/-- The order of two values; `none` if they have none. -/
def compare? (a b : Value) : Option Ordering :=
  match a, b with
  | int i, int j => some (compare i j)
  | string s, string t => some (compare s t)
  | _, _ => do compareFloats? (← a.asFloat?) (← b.asFloat?)

def equalComponents (v w : Vector Float n) : Bool := (v.zipWith (· == ·) w).all id

mutual

def equal : Value → Value → Bool
  | empty, empty => true
  | null, null => true
  | bool b, bool c => b == c
  | int i, int j => i == j
  | int i, float y => widen i == y
  | float x, int j => x == widen j
  | float x, float y => x == y
  | string s, string t => s == t
  | color c, color d => c.equal d
  | vector2 v, vector2 w => equalComponents v w
  | vector3 v, vector3 w => equalComponents v w
  | vector4 v, vector4 w => equalComponents v w
  | quaternion v, quaternion w => equalComponents v w
  | list vs, list ws => equalLists vs ws
  | object r, object s => r.index == s.index
  | function r, function s => r.index == s.index
  | _, _ => false

/-- Lists of one length whose items are equal in order. -/
def equalLists : List Value → List Value → Bool
  | [], [] => true
  | v :: vs, w :: ws => equal v w && equalLists vs ws
  | _, _ => false

end

/-- Equality that also tells an integer from a float of the same value. -/
def same (a b : Value) : Bool :=
  match a, b with
  | int _, float _ => false
  | float _, int _ => false
  | _, _ => equal a b

end Formulae.Value
