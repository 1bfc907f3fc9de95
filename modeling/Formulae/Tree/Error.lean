import Formulae.Span

/-!
Why a list of tokens is no expression.
-/

namespace Formulae

inductive ParseError where
  | unexpectedToken (expected actual : String) (span : Span)
  | unexpectedEnd
  /-- No rule says what the token means at its place. -/
  | invalidToken (token : String) (span : Span)
  | nestingTooDeep (limit : Nat)
  deriving DecidableEq, Repr

def ParseError.message : ParseError → String
  | unexpectedToken expected actual span =>
    "expected " ++ expected ++ ", found '" ++ actual ++ "' at " ++ span.text
  | unexpectedEnd => "unexpected end of expression"
  | invalidToken token span => "'" ++ token ++ "' is not valid at " ++ span.text
  | nestingTooDeep limit => "expression nests deeper than " ++ toString limit ++ " levels"

end Formulae
