import Formulae.Dialect.Basic
import Formulae.Token.Basic
import Formulae.Tree.Basic
import Formulae.Tree.Error

/-!
Trees from tokens.

An operand starts with what its first token means to the dialect; the operators
behind it are taken while they bind tighter than the power being parsed at. Nesting
is limited twice: by how many expressions may be open inside one another, and by the
depth of every node, since a chain of operators grows deep without nesting.
-/

namespace Formulae

namespace Parser

/-- The tokens that are left, and the place of the one before them. -/
structure Cursor where
  last : Span
  rest : List Token

/-- Reading something at a cursor. -/
abbrev Step (α : Type) := Cursor → Except ParseError (α × Cursor)

/-- The next token is not what was expected. -/
def Cursor.unexpected (c : Cursor) (expected : String) : ParseError :=
  match c.rest with
  | t :: _ => .unexpectedToken expected t.text t.span
  | [] => .unexpectedEnd

/-- Whether the next token is this operator. -/
def Cursor.isAt (c : Cursor) (symbol : String) : Bool :=
  match c.rest with
  | t :: _ => t.isOperator symbol
  | [] => false

/-- The cursor behind the next token. -/
def Cursor.next (c : Cursor) : Cursor :=
  match c.rest with
  | t :: rest => ⟨t.span, rest⟩
  | [] => c

/-- Takes this operator. -/
def demand (symbol : String) (c : Cursor) : Except ParseError Cursor :=
  if c.isAt symbol then .ok c.next else .error (c.unexpected ("'" ++ symbol ++ "'"))

def identifier : Step String := fun c =>
  match c.rest with
  | t :: rest =>
    if t.kind = .identifier then .ok (t.text, ⟨t.span, rest⟩)
    else .error (c.unexpected "identifier")
  | [] => .error .unexpectedEnd

/-- Refuses a tree that is too deep. -/
def limited (limit : Nat) (t : Tree) : Except ParseError Tree :=
  if limit < t.depth then .error (.nestingTooDeep limit) else .ok t

/-- A fixed value wins over a provided one, and both win over a free name. -/
def resolve (d : Dialect) (s : String) (span : Span) : Tree :=
  let mark := Mark.over span []
  match d.constants[s]? with
  | some value => .constant mark s value
  | none =>
    match d.providers[s]? with
    | some provider => .provided mark s provider
    | none => .name mark s

/-- The rule for the next token, if it is an operator that may follow an operand. -/
def Cursor.following? (d : Dialect) (c : Cursor) : Option (Power × FollowingRule) :=
  match c.rest with
  | t :: _ => if t.kind = .operator then d.following[t.text]? else none
  | [] => none

section Rules

/-! `inner` reads an expression at a power, one level further in. -/

variable (d : Dialect) (limit : Nat) (inner : Nat → Step Tree)

/-- A piece of template text or an embedded expression. -/
def part : Step Part := fun c =>
  match c.rest with
  | [] => .error .unexpectedEnd
  | t :: _ =>
    match t.kind with
    | .literal =>
      let text := match t.value with
        | some (.string s) => s
        | _ => t.text
      .ok (.text text, c.next)
    | .operator =>
      if t.text = "\x7b" then do
        let (tree, c) ← inner Power.loosest c.next
        let c ← demand "\x7d" c
        return (.embed tree, c)
      else .error (c.unexpected "template text")
    | _ => .error (c.unexpected "template text")

/-- The parts up to a closing backtick; `bound` is at least the number of tokens left. -/
def parts : (bound : Nat) → Step (List Part)
  | bound, c =>
    if c.isAt "\x60" then .ok ([], c.next)
    else
      match bound with
      | 0 => .error .unexpectedEnd
      | bound + 1 => do
        let (p, c) ← part inner c
        let (ps, c) ← parts bound c
        return (p :: ps, c)

/-- One argument of a call or more, up to the closing parenthesis. -/
def arguments : (bound : Nat) → Step (List Tree)
  | bound, c => do
    let (t, c) ← inner Power.loosest c
    if c.isAt "," then
      match bound with
      | 0 => .error .unexpectedEnd
      | bound + 1 =>
        let (ts, c) ← arguments bound c.next
        return (t :: ts, c)
    else
      let c ← demand ")" c
      return ([t], c)

/-- What follows an opening operator at `start`. -/
def opened (start : Span) : OpeningRule → Step Tree
  | .group, c => do
    let (t, c) ← inner Power.loosest c
    let c ← demand ")" c
    let tree ← limited limit (.group (.over (start.merge c.last) [t]) t)
    return (tree, c)
  | .template, c => do
    let (ps, c) ← parts inner c.rest.length c
    let tree ← limited limit (.template (.over (start.merge c.last) (Part.embeds ps)) ps)
    return (tree, c)
  | .unary op, c => do
    let (t, c) ← inner Power.unaryOperand c
    let tree ← limited limit (.unary (.over (start.merge c.last) [t]) op t)
    return (tree, c)

/-- A literal, a name, or what an opening operator starts. -/
def operand : Step Tree := fun c =>
  match c.rest with
  | [] => .error .unexpectedEnd
  | t :: _ =>
    match t.kind with
    | .literal =>
      .ok (.literal (.over t.span []) t.text (t.value.getD .empty), c.next)
    | .identifier => .ok (resolve d t.text t.span, c.next)
    | .operator =>
      match d.opening[t.text]? with
      | some rule => opened limit inner t.span rule c.next
      | none => .error (.invalidToken t.text t.span)
    | _ => .error (.invalidToken t.text t.span)

/-- What an operator behind `left` makes of it. -/
def followed (left : Tree) (power : Power) : FollowingRule → Step Tree
  | .binary op, c => do
    let (right, c) ← inner power.right c
    let tree ← limited limit (.binary (.over (left.span.merge c.last) [left, right]) op left right)
    return (tree, c)
  | .assign op, c => do
    let (value, c) ← inner power.right c
    let tree ← limited limit (.assign (.over (left.span.merge c.last) [left, value]) op left value)
    return (tree, c)
  | .step op, c => do
    let tree ← limited limit (.step (.over (left.span.merge c.last) [left]) op left)
    return (tree, c)
  | .access, c => do
    let (s, c) ← identifier c
    let tree ← limited limit (.member (.over (left.span.merge c.last) [left]) left (.named s))
    return (tree, c)
  | .lookup, c => do
    let (key, c) ← inner Power.loosest c
    let c ← demand "]" c
    let tree ← limited limit
      (.member (.over (left.span.merge c.last) [left, key]) left (.keyed key))
    return (tree, c)
  | .call, c => do
    let (args, c) ← if c.isAt ")" then .ok ([], c.next) else arguments inner c.rest.length c
    let tree ← limited limit (.call (.over (left.span.merge c.last) (left :: args)) left args)
    return (tree, c)
  | .choice, c => do
    let (yes, c) ← inner power.right c
    let c ← demand ":" c
    let (no, c) ← inner Power.choice.right c
    let tree ← limited limit (.choice (.over (left.span.merge c.last) [left, yes, no]) left yes no)
    return (tree, c)

/-- The operators behind `left` that bind tighter than `min`. -/
def chain (min : Nat) : (bound : Nat) → Tree → Step Tree
  | bound, left, c =>
    match c.following? d with
    | none => .ok (left, c)
    | some (power, rule) =>
      if power.left ≤ min then .ok (left, c)
      else
        match bound with
        | 0 => .ok (left, c)
        | bound + 1 => do
          let (left, c) ← followed limit inner left power rule c.next
          chain min bound left c

end Rules

/-- An operand and the operators behind it that bind tighter than a power. No more than
`room` expressions may be open inside one another. -/
def expression (d : Dialect) (limit : Nat) : (room : Nat) → Nat → Step Tree
  | 0, _, _ => .error (.nestingTooDeep limit)
  | room + 1, min, c => do
    let (left, c) ← operand d limit (expression d limit room) c
    chain d limit (expression d limit room) min c.rest.length left c

/-- The cursor before the first token. -/
def Cursor.start (ts : List Token) : Cursor := ⟨⟨0, 0⟩, Token.significant ts⟩

/-- Nothing but sentinels may follow a whole expression. -/
def finish (d : Dialect) (c : Cursor) : Except ParseError Unit :=
  match c.rest.dropWhile fun t => t.kind = .sentinel with
  | [] => .ok ()
  | t :: _ =>
    if t.kind = .operator ∧ ¬ d.following.contains t.text then .error (.invalidToken t.text t.span)
    else .error (.unexpectedToken "end of expression" t.text t.span)

end Parser

open Formulae.Parser

/-- The deepest nesting an expression may have. -/
def Tree.depthLimit : Nat := 256

/-- The tree of a whole expression, with a limit on its nesting. -/
def Tree.parseWithin (d : Dialect) (limit : Nat) (ts : List Token) : Except ParseError Tree :=
  let c := Cursor.start ts
  if c.rest.isEmpty then .error .unexpectedEnd
  else do
    let (t, c) ← expression d limit limit Power.loosest c
    finish d c
    return t

/-- The parts of a bare template up to the end of the tokens. -/
def Parser.allParts (inner : Nat → Step Tree) : (bound : Nat) → Step (List Part)
  | bound, c =>
    if c.rest.isEmpty then .ok ([], c)
    else
      match bound with
      | 0 => .ok ([], c)
      | bound + 1 => do
        let (p, c) ← part inner c
        let (ps, c) ← allParts inner bound c
        return (p :: ps, c)

/-- The template that the tokens are the body of, with a limit on its nesting. -/
def Tree.parseTemplateWithin (d : Dialect) (limit : Nat) (ts : List Token) :
    Except ParseError Tree := do
  let c := Cursor.start ts
  let first := (c.rest.head?.map Token.span).getD (.point c.last.stop)
  let (ps, c) ← allParts (expression d limit limit) c.rest.length c
  limited limit (.template (.over (first.merge c.last) (Part.embeds ps)) ps)

def Tree.parse (d : Dialect) : List Token → Except ParseError Tree := Tree.parseWithin d depthLimit

def Tree.parseTemplate (d : Dialect) : List Token → Except ParseError Tree :=
  Tree.parseTemplateWithin d depthLimit

end Formulae
