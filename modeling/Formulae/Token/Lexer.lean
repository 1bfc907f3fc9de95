import Formulae.Text.Bytes
import Formulae.Token.Error
import Formulae.Token.Rule

/-!
Splitting a text into tokens.

The lexer keeps a mode and whether an operand has just ended; both decide what the
next characters mean. It stops at the first character that no rule matches and at
the first number out of range.
-/

namespace Formulae

namespace Lexer

/-- What the lexer knows at a token boundary. -/
structure State where
  mode : Mode
  afterOperand : Bool := false
  /-- The number of bytes read. -/
  position : Nat := 0
  deriving DecidableEq, Repr

/-- A token together with the state at its start. -/
structure Reading where
  state : State
  token : Token

def State.scan (st : State) (c : Char) (cs : List Char) : Option Lexeme :=
  st.mode.rules.findSome? fun rule => rule st.afterOperand c cs

/-- The state behind a token of `width` bytes. Comments and white space leave the
question of the last operand open. -/
def State.after (st : State) (lexeme : Lexeme) (width : Nat) : State where
  mode := lexeme.mode.getD st.mode
  afterOperand := if lexeme.kind.isIgnorable then st.afterOperand else lexeme.endsOperand
  position := st.position + width

def State.token (st : State) (lexeme : Lexeme) (text : List Char) : Token where
  kind := lexeme.kind
  span := ⟨st.position, st.position + Text.width text⟩
  text := String.ofList text
  value := lexeme.value

/-- The readings of a text, of which the first `skip` characters are part of a token
that has been read. Comments and white space are kept only if they are to be preserved. -/
def readings (preserve : Bool) (st : State) : Nat → List Char → Except LexError (List Reading)
  | _, [] => .ok []
  | skip + 1, _ :: cs => readings preserve st skip cs
  | 0, c :: cs =>
    match st.scan c cs with
    | none => .error (.noMatch st.position (LexError.context (c :: cs)))
    | some lexeme =>
      let text := c :: cs.take lexeme.extra
      if lexeme.outOfRange then .error (.outOfRange st.position (String.ofList text))
      else
        match readings preserve (st.after lexeme (Text.width text)) lexeme.extra cs with
        | .ok rest =>
          if preserve || !lexeme.kind.isIgnorable then .ok (⟨st, st.token lexeme text⟩ :: rest)
          else .ok rest
        | .error e => .error e

theorem readings_eq_drop (preserve : Bool) (st : State) (skip : Nat) (cs : List Char) :
    readings preserve st skip cs = readings preserve st 0 (cs.drop skip) := by
  induction skip generalizing cs with
  | zero => rfl
  | succ skip ih =>
    cases cs with
    | nil => simp [readings]
    | cons c cs => simp [readings, ih]

end Lexer

/-- The tokens of a text, comments and white space included. -/
def Token.all (mode : Mode) (text : List Char) : Except LexError (List Token) :=
  (Lexer.readings true { mode } 0 text).map fun rs => rs.map Lexer.Reading.token

/-- The tokens of a text that mean something. -/
def Token.read (mode : Mode) (text : List Char) : Except LexError (List Token) :=
  (Lexer.readings false { mode } 0 text).map fun rs => rs.map Lexer.Reading.token

end Formulae
