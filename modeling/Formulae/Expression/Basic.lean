import Formulae.Evaluation.Basic
import Formulae.Expression.Flavor
import Formulae.Token.Lexer
import Formulae.Tree.Parser

/-!
Expressions: source text and what it compiled to.

An expression whose text does not compile is kept with the reason, and running it
gives the absent value. Empty text is no expression, and no error either.
-/

namespace Formulae

inductive CompileError where
  | lex (error : LexError)
  | parse (error : ParseError)
  /-- The text is an expression, but no assignment. -/
  | notAssignment (content : String)
  deriving DecidableEq, Repr

def CompileError.message : CompileError → String
  | lex error => error.message
  | parse error => error.message
  | notAssignment content => "'" ++ content ++ "' is not an assignment"

/-- The tree of a text. -/
def Tree.compile (presets : Presets) (flavor : Flavor) (content : String) :
    Except CompileError Tree := do
  let tokens ← (Token.read flavor.mode content.toList).mapError .lex
  let dialect := presets.get flavor
  let tree ← (match flavor with
    | .template => Tree.parseTemplate dialect tokens
    | _ => Tree.parse dialect tokens).mapError .parse
  if flavor = .assignment ∧ tree.isAssignment = false then throw (.notAssignment content)
  return tree

/-- What compiling a text came to. -/
inductive Outcome where
  | blank
  | failed (error : CompileError)
  | ready (tree : Tree)

namespace Outcome

def tree? : Outcome → Option Tree
  | ready tree => some tree
  | _ => none

def error? : Outcome → Option CompileError
  | failed error => some error
  | _ => none

def of (presets : Presets) (flavor : Flavor) (content : String) : Outcome :=
  if content.isEmpty then blank
  else
    match Tree.compile presets flavor content with
    | .ok tree => ready tree
    | .error error => failed error

end Outcome

structure Expression where
  flavor : Flavor := .plain
  content : String := ""
  outcome : Outcome := .blank

namespace Expression

instance : Inhabited Expression := ⟨{}⟩

def compile (presets : Presets) (flavor : Flavor) (content : String) : Expression where
  flavor
  content
  outcome := .of presets flavor content

/-- The expression with its text replaced and compiled again. -/
def recompile (presets : Presets) (content : String) (e : Expression) : Expression :=
  compile presets e.flavor content

def isValid (e : Expression) : Bool := e.outcome.tree?.isSome

/-- The canonical text of the tree, or the source text if there is none. -/
def text (e : Expression) : String := (e.outcome.tree?.map Tree.text).getD e.content

def execute (host : Host) (e : Expression) : Eval Value :=
  match e.outcome.tree? with
  | none => return .empty
  | some tree =>
    match e.flavor with
    | .readOnly => Eval.under .readOnly (tree.eval host)
    | _ => tree.eval host

theorem execute_of_ready {e : Expression} {t : Tree} (ready : e.outcome = .ready t) (host : Host) :
    e.execute host =
      if e.flavor = .readOnly then Eval.under .readOnly (t.eval host) else t.eval host := by
  rw [execute, ready, Outcome.tree?]
  cases e.flavor <;> rfl

/-- Runs an evaluation whose result has to be of a kind. -/
def expecting (kind : Kind) (act : Eval Value) : Eval Value := do
  let v ← act
  if v.kind = kind then return v else throw (.unexpectedResult kind v.kind)

def executeExpecting (host : Host) (kind : Kind) (e : Expression) : Eval Value :=
  expecting kind (e.execute host)

theorem recompile_compile (presets : Presets) (flavor : Flavor) (old new : String) :
    (compile presets flavor old).recompile presets new = compile presets flavor new := rfl

end Expression

end Formulae
