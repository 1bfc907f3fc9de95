import Formulae.Span
import Formulae.Value.Basic

/-!
Tokens: pieces of source text with their place in it.
-/

namespace Formulae

inductive TokenKind where
  /-- A number, text, color, or the free text of a template. -/
  | literal
  | identifier
  /-- An operator, bracket or template marker. -/
  | operator
  /-- The separator that may end an expression. -/
  | sentinel
  | comment
  | blank
  | other
  deriving DecidableEq, Repr

namespace TokenKind

/-- Comments and white space mean nothing to the parser. -/
def isIgnorable : TokenKind → Bool
  | comment | blank => true
  | _ => false

def name : TokenKind → String
  | literal => "literal"
  | identifier => "identifier"
  | operator => "operator"
  | sentinel => "sentinel"
  | comment => "comment"
  | blank => "whitespace"
  | other => "token"

end TokenKind

structure Token where
  kind : TokenKind
  span : Span
  /-- The source text of the token. -/
  text : String
  /-- What a literal denotes. -/
  value : Option Value := none

namespace Token

def isOperator (t : Token) (symbol : String) : Bool := t.kind = .operator && t.text == symbol

theorem isOperator_iff {t : Token} {symbol : String} :
    t.isOperator symbol = true ↔ t.kind = .operator ∧ t.text = symbol := by
  simp [isOperator]

def describe (t : Token) : String := t.kind.name ++ " '" ++ t.text ++ "'"

/-- The tokens that mean something, in order. -/
def significant (ts : List Token) : List Token := ts.filter fun t => !t.kind.isIgnorable

theorem mem_significant {t : Token} {ts : List Token} :
    t ∈ significant ts ↔ t ∈ ts ∧ t.kind.isIgnorable = false := by
  simp [significant]

end Token

end Formulae
