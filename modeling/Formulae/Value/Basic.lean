import Formulae.Color
import Formulae.Value.Kind

/-!
The values that formulas compute with.

Aggregates are values: a copy is independent of what it was copied from. Objects
and functions belong to the host; a value holds a reference to one, and two
references are the same if their indices are.
-/

namespace Formulae

/-- A reference to a host object, with the object's type name. -/
structure ObjectRef where
  index : Nat
  typeName : String
  deriving DecidableEq, Repr

/-- A reference to a host function, with the function's name. -/
structure FunctionRef where
  index : Nat
  name : String
  deriving DecidableEq, Repr

inductive Value where
  /-- The absence of a value. -/
  | empty
  | null
  | bool (b : Bool)
  | int (i : Int64)
  | float (x : Float)
  | string (s : String)
  | color (c : Color)
  | vector2 (v : Vector Float 2)
  | vector3 (v : Vector Float 3)
  | vector4 (v : Vector Float 4)
  /-- Components in the order x, y, z, w. -/
  | quaternion (v : Vector Float 4)
  | list (items : List Value)
  | object (ref : ObjectRef)
  | function (ref : FunctionRef)

namespace Value

instance : Inhabited Value := ⟨empty⟩

def kind : Value → Kind
  | empty => .empty
  | null => .null
  | bool _ => .bool
  | int _ => .int
  | float _ => .float
  | string _ => .string
  | color _ => .color
  | vector2 _ => .vector2
  | vector3 _ => .vector3
  | vector4 _ => .vector4
  | quaternion _ => .quaternion
  | list _ => .list
  | object _ => .object
  | function _ => .function

/-- The name of the kind; an object has a type name of its own. -/
def typeName : Value → String
  | object ref => ref.typeName
  | v => v.kind.name

def isEmpty : Value → Bool
  | empty => true
  | _ => false

/-- Whether a write to a member lands in shared storage, not in this value. -/
def isReference : Value → Bool
  | object _ => true
  | _ => false

/-- Only `Bool` values are true or false. -/
def asBool? : Value → Option Bool
  | bool b => some b
  | _ => none

def asInt? : Value → Option Int64
  | int i => some i
  | _ => none

/-- The double nearest to a word. -/
def widen (i : Int64) : Float := Float.ofInt i.toInt

/-- Numbers as doubles. -/
def asFloat? : Value → Option Float
  | int i => some (widen i)
  | float x => some x
  | _ => none

def asString? : Value → Option String
  | string s => some s
  | _ => none

def asFunction? : Value → Option FunctionRef
  | function ref => some ref
  | _ => none

theorem isEmpty_iff {v : Value} : v.isEmpty = true ↔ v = empty := by cases v <;> simp [isEmpty]

theorem asInt?_isSome_iff {v : Value} : v.asInt?.isSome = true ↔ v.kind = .int := by
  cases v <;> simp [asInt?, kind]

theorem asFloat?_isSome_iff {v : Value} :
    v.asFloat?.isSome = true ↔ v.kind = .int ∨ v.kind = .float := by
  cases v <;> simp [asFloat?, kind]

/-- The value as a variable or parameter of kind `k` takes it: an `Int` is widened
for a `Float`, and any other kind has to be the same. -/
def convert? (k : Kind) : Value → Option Value
  | int i => match k with
    | .float => some (float (widen i))
    | .int => some (int i)
    | _ => none
  | v => if v.kind = k then some v else none

theorem kind_of_convert? {k : Kind} {v w : Value} (h : v.convert? k = some w) : w.kind = k := by
  unfold convert? at h
  split at h
  · split at h <;> cases h <;> rfl
  · split at h
    · next same => cases h; exact same
    · cases h

theorem convert?_self (v : Value) : v.convert? v.kind = some v := by
  cases v <;> simp [convert?, kind]

end Value

end Formulae
