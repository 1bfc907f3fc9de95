import Formulae.Value.Basic

/-!
The text of a value, as templates and concatenation show it.
-/

namespace Formulae.Value

/-- Parts between brackets, separated by a comma and a space. -/
def bracketed (opening closing : String) (parts : List String) : String :=
  opening ++ ", ".intercalate parts ++ closing

def components (v : Vector Float n) : List String := v.toList.map Decimal.ofFloat

mutual

/-- Strings stand for themselves, and the absent value for no text at all. -/
def text : Value → String
  | empty => ""
  | null => "null"
  | bool b => if b then "true" else "false"
  | int i => toString i.toInt
  | float x => Decimal.ofFloat x
  | string s => s
  | color c => c.text
  | vector2 v => bracketed "(" ")" (components v)
  | vector3 v => bracketed "(" ")" (components v)
  | vector4 v => bracketed "(" ")" (components v)
  | quaternion v => bracketed "Quaternion(" ")" (components v)
  | list items => bracketed "[" "]" (texts items)
  | object ref => ref.typeName
  | function ref => "<function " ++ ref.name ++ ">"

def texts : List Value → List String
  | [] => []
  | v :: vs => text v :: texts vs

end

theorem texts_eq_map (vs : List Value) : texts vs = vs.map text := by
  induction vs with
  | nil => rfl
  | cons v vs ih => simp [texts, ih]

@[simp] theorem text_string (s : String) : (string s).text = s := by simp [text]

@[simp] theorem text_empty : empty.text = "" := by simp [text]

end Formulae.Value
