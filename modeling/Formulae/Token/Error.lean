/-!
Why a text has no tokens.
-/

namespace Formulae

inductive LexError where
  /-- No rule matches at the position. -/
  | noMatch (position : Nat) (context : String)
  /-- A number is too large for its kind. -/
  | outOfRange (position : Nat) (text : String)
  deriving DecidableEq, Repr

namespace LexError

def position : LexError → Nat
  | noMatch position _ => position
  | outOfRange position _ => position

/-- How many characters of the text an error quotes. -/
def contextLength : Nat := 10

/-- The start of the remaining text; three points stand for what is left out. -/
def context (rest : List Char) : String :=
  String.ofList (rest.take contextLength) ++ if contextLength < rest.length then "..." else ""

def message : LexError → String
  | noMatch position context =>
    "unexpected input at offset " ++ toString position ++ ": '" ++ context ++ "'"
  | outOfRange position text =>
    "numeric literal '" ++ text ++ "' at offset " ++ toString position ++ " is out of range"

end LexError

end Formulae
