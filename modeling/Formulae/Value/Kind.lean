/-!
The kinds of value and their names.
-/

namespace Formulae

inductive Kind where
  | empty
  | null
  | bool
  | int
  | float
  | string
  | color
  | vector2
  | vector3
  | vector4
  | quaternion
  | list
  | object
  | function
  deriving DecidableEq, Repr

namespace Kind

def all : List Kind :=
  [empty, null, bool, int, float, string, color, vector2, vector3, vector4, quaternion, list,
    object, function]

theorem mem_all (k : Kind) : k ∈ all := by cases k <;> decide

def name : Kind → String
  | empty => "Empty"
  | null => "Null"
  | bool => "Bool"
  | int => "Int"
  | float => "Float"
  | string => "String"
  | color => "Color"
  | vector2 => "Vector2"
  | vector3 => "Vector3"
  | vector4 => "Vector4"
  | quaternion => "Quaternion"
  | list => "List"
  | object => "Object"
  | function => "Function"

/-- The kind called `s`. -/
def ofName? (s : String) : Option Kind := all.find? (·.name == s)

theorem ofName?_name (k : Kind) : ofName? k.name = some k := by cases k <;> rfl

end Kind

end Formulae
