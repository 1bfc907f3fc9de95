import Formulae.Host.Function
import Formulae.Host.Object
import Formulae.Number.Word

/-!
Why an evaluation has no result.
-/

namespace Formulae

inductive EvalError where
  /-- An operator does not apply to operands of these types. -/
  | mismatch (operator : String) (operands : List String)
  /-- The target is no place that holds a value. -/
  | unassignable (target : String)
  /-- A write was refused; `kind` is the kind of the value. -/
  | refused (target : String) (kind : Kind) (refusal : Refusal)
  /-- What is called is no function. -/
  | notCallable (callee typeName : String)
  | noMember (typeName member : String)
  | arithmetic (operator : String) (fault : Fault)
  | call (error : CallError)
  /-- The result is not of the kind that was asked for. -/
  | unexpectedResult (expected actual : Kind)
  deriving DecidableEq, Repr

def EvalError.message : EvalError → String
  | mismatch operator operands =>
    "operator '" ++ operator ++ "' cannot be applied to (" ++ ", ".intercalate operands ++ ")"
  | unassignable target => "'" ++ target ++ "' cannot be assigned to"
  | refused target kind refusal =>
    match refusal with
    | .notFound => "'" ++ target ++ "' does not exist and cannot be assigned"
    | .readOnly => "'" ++ target ++ "' is read-only"
    | .typeMismatch => "'" ++ target ++ "' cannot hold a value of type " ++ kind.name
  | notCallable callee typeName => "'" ++ callee ++ "' is a " ++ typeName ++ ", not a function"
  | noMember typeName member => typeName ++ " has no member '" ++ member ++ "'"
  | arithmetic operator fault => "arithmetic error in '" ++ operator ++ "': " ++ fault.message
  | call error => error.message
  | unexpectedResult expected actual =>
    "expected a result of type " ++ expected.name ++ ", got " ++ actual.name

end Formulae
