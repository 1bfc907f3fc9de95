import Formulae.Color.Hex
import Formulae.Number.Word
import Formulae.Text.Blank
import Formulae.Text.Free
import Formulae.Text.Quoted
import Formulae.Token.Basic

/-!
The rules that say where a token ends.

A rule looks at the first character of the remaining text and at what follows it.
The rules of a mode are tried in order and the first that matches decides.
-/

namespace Formulae

/-- How text is read: as an expression, or as the body of a template. -/
inductive Mode where
  | expression
  | template
  deriving DecidableEq, Repr

/-- What a rule matched. The token has the first character and `extra` more. -/
structure Lexeme where
  kind : TokenKind
  extra : Nat
  value : Option Value := none
  /-- Whether the literal denotes no value of its kind. -/
  outOfRange : Bool := false
  /-- The mode that a marker switches to. -/
  mode : Option Mode := none
  /-- Whether an operand is complete, so that a sign after it is an operator. -/
  endsOperand : Bool := false

namespace Lexeme

/-- A literal of an expression. -/
def literal (extra : Nat) (value : Option Value) : Lexeme :=
  { kind := .literal, extra, value, outOfRange := value.isNone, endsOperand := true }

/-- A one-character marker that switches the mode. -/
def marker (mode : Mode) (endsOperand : Bool) : Lexeme :=
  { kind := .operator, extra := 0, mode := some mode, endsOperand }

end Lexeme

/-- Whether an operand has just ended, the first character, and the rest. -/
abbrev Rule := Bool → Char → List Char → Option Lexeme

namespace Rule

/-- A leading sign and what follows it. -/
def splitSign : List Char → List Char × List Char
  | '+' :: cs => (['+'], cs)
  | '-' :: cs => (['-'], cs)
  | cs => ([], cs)

/-- A point and the digits after it are a fraction. -/
def fractionOf : List Char → List Char
  | '.' :: cs => cs.takeWhile Char.isDigit
  | _ => []

def integerValue (sign whole : List Char) : Option Value :=
  let n : Int := Decimal.ofDigits whole
  (Word.ofInt? (if sign = ['-'] then -n else n)).map .int

def floatValue (sign whole fraction : List Char) : Option Value :=
  let x := Decimal.toFloat (sign = ['-']) whole fraction
  if x.isFinite then some (.float x) else none

/-- Digits with a fraction are a float, digits alone an integer. Behind an operand a
sign does not belong to the number. -/
def number : Rule := fun afterOperand c cs =>
  let (sign, body) := splitSign (c :: cs)
  let whole := body.takeWhile Char.isDigit
  let fraction := fractionOf (body.dropWhile Char.isDigit)
  if afterOperand ∧ sign ≠ [] then none
  else if fraction ≠ [] then
    some (.literal (sign.length + whole.length + fraction.length) (floatValue sign whole fraction))
  else if whole ≠ [] then
    some (.literal (sign.length + whole.length - 1) (integerValue sign whole))
  else none

/-- Text between double quotes. -/
def string : Rule := fun _ c cs =>
  if c = '"' then
    (Text.Quoted.body? cs).map fun body =>
      .literal (body.length + 1) (some (.string (String.ofList (Text.Quoted.decode body))))
  else none

def isHexDigit (c : Char) : Bool := (Color.hexDigit? c).isSome

/-- A number sign and three to nine hexadecimal digits. -/
def color : Rule := fun _ c cs =>
  let digits := (cs.takeWhile isHexDigit).take 9
  if c = '#' ∧ 3 ≤ digits.length then
    some (.literal digits.length (some (.color (Color.decode (c :: digits)))))
  else none

def isNameStart (c : Char) : Bool := c.isAlpha || c == '_'

def isNameChar (c : Char) : Bool := c.isAlphanum || c == '_'

/-- A name of ASCII letters, digits and underscores. -/
def identifier : Rule := fun _ c cs =>
  if isNameStart c then
    some { kind := .identifier, extra := (cs.takeWhile isNameChar).length, endsOperand := true }
  else none

/-- The length of a line with the line feed that ends it. -/
def lineLength : List Char → Nat
  | [] => 0
  | c :: cs => if c = '\n' then 1 else 1 + lineLength cs

/-- The length of a block comment behind its opening, with its closing. -/
def blockLength : List Char → Nat
  | [] => 0
  | '*' :: '/' :: _ => 2
  | _ :: cs => 1 + blockLength cs

/-- Two slashes and the rest of the line, or text between a slash with a star and a
star with a slash. At the end of the text neither needs its closing. -/
def comment : Rule
  | _, '/', '/' :: cs => some { kind := .comment, extra := 1 + lineLength cs }
  | _, '/', '*' :: cs => some { kind := .comment, extra := 1 + blockLength cs }
  | _, _, _ => none

/-- The operators of two characters. -/
def pairs : List (Char × Char) :=
  [('+', '+'), ('-', '-'), ('&', '&'), ('|', '|'), ('=', '='), ('!', '='), ('<', '='), ('>', '='),
    ('+', '='), ('-', '='), ('*', '='), ('/', '='), ('%', '='), ('^', '='), ('&', '='), ('|', '=')]

/-- A step behind an operand leaves one behind itself. -/
def pair : Rule
  | afterOperand, c, d :: _ =>
    if (c, d) ∈ pairs then
      some { kind := .operator, extra := 1
             endsOperand := afterOperand && ((c, d) == ('+', '+') || (c, d) == ('-', '-')) }
    else none
  | _, _, [] => none

/-- The operators and brackets of one character. -/
def singles : List Char :=
  ['!', '%', '^', '&', '*', '-', '+', '=', '/', '|', '<', '>', '~', '?', ':', '.', ',', '(', ')',
    '[', ']']

def single : Rule := fun _ c _ =>
  if c ∈ singles then some { kind := .operator, extra := 0, endsOperand := c == ')' || c == ']' }
  else none

/-- A backtick opens a template, and a closing brace goes back into one. -/
def templateMarker : Rule := fun _ c _ =>
  if c = '\x60' ∨ c = '\x7d' then some (.marker .template false) else none

def blank : Rule := fun _ c cs =>
  if Text.isBlank c then some { kind := .blank, extra := (cs.takeWhile Text.isBlank).length }
  else none

def sentinel : Rule := fun _ c _ =>
  if c = ';' then some { kind := .sentinel, extra := 0 } else none

/-- An opening brace embeds an expression, and a backtick ends the template, which is
an operand. -/
def expressionMarker : Rule := fun _ c _ =>
  if c = '\x7b' then some (.marker .expression false)
  else if c = '\x60' then some (.marker .expression true)
  else none

def template : Rule := fun _ c cs =>
  match Text.Free.decode (c :: cs) with
  | (0, _) => none
  | (extra + 1, text) =>
    some { kind := .literal, extra, value := some (.string (String.ofList text)) }

end Rule

/-- The rules of a mode, in the order they are tried. -/
def Mode.rules : Mode → List Rule
  | .expression =>
    [.number, .string, .color, .identifier, .comment, .pair, .single, .templateMarker, .blank,
      .sentinel]
  | .template => [.expressionMarker, .template]

end Formulae
