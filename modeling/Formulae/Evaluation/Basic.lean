import Formulae.Evaluation.Operation
import Formulae.Evaluation.World
import Formulae.Tree.Printer

/-!
Evaluating trees.

Operands are evaluated from left to right, and both operands of a logical operator
always are. A write to a member of a value writes the changed container back to where
it came from, up to the first shared object or to a variable.
-/

namespace Formulae

namespace Tree

mutual

/-- The value of a tree. -/
def eval (host : Host) : Tree → Eval Value
  | literal _ _ value => pure value
  | constant _ _ value => pure value
  | provided _ _ provider => Eval.provide provider
  | name _ s => return (← get).scope.get s
  | group _ inner => eval host inner
  | unary _ op operand =>
    match op with
    | .negate => do Eval.ofExcept (Operation.negate (← eval host operand))
    | .invert => do Eval.ofExcept (Operation.invert (← eval host operand))
    | .step op => do
      let (_, new) ← Eval.update operand.text (eval host operand)
        (fun old => Eval.ofExcept (Operation.step op old)) (write host operand)
      return new
  | binary _ op left right => do
    let a ← eval host left
    let b ← eval host right
    Eval.ofExcept (Operation.binary op a b)
  | assign _ op target value =>
    match op.combine? with
    | none => do
      let v ← eval host value
      Eval.store target.text (write host target) v
      return v
    | some op => do
      let (_, new) ← Eval.update target.text (eval host target)
        (fun old => do Eval.ofExcept (Operation.binary op old (← eval host value)))
        (write host target)
      return new
  | step _ op operand => do
    let (old, _) ← Eval.update operand.text (eval host operand)
      (fun old => Eval.ofExcept (Operation.step op old)) (write host operand)
    return old
  | member _ container selector => do
    let c ← eval host container
    let key ← selectorKey host selector
    Eval.member c key
  | call _ callee args => do
    let f ← eval host callee
    match f.asFunction? with
    | none => throw (.notCallable callee.text f.typeName)
    | some ref =>
      let vs ← evalAll host args
      Eval.ofExcept ((host.call ref vs).mapError .call)
  | choice _ condition yes no => do
    let c ← eval host condition
    match c.asBool? with
    | some true => eval host yes
    | some false => eval host no
    | none => throw (.inapplicable "?" [c])
  | template _ parts => return .string (← evalParts host parts)

/-- The values of some trees, from left to right. -/
def evalAll (host : Host) : List Tree → Eval (List Value)
  | [] => return []
  | t :: ts => do
    let v ← eval host t
    let vs ← evalAll host ts
    return v :: vs

/-- The text of a template. -/
def evalParts (host : Host) : List Part → Eval String
  | [] => return ""
  | .text s :: ps => return s ++ (← evalParts host ps)
  | .embed t :: ps => do
    let v ← eval host t
    return v.text ++ (← evalParts host ps)

/-- The key that a selector stands for. -/
def selectorKey (host : Host) : Selector → Eval Value
  | .named s => return .string s
  | .keyed key => eval host key

/-- Writes a value through a target, or says why the write is refused. A tree that is no
target is refused before a scope that is read-only. -/
def write (host : Host) : Tree → Value → Eval Attempt
  | name _ s, v => do
    if (← get).scope.isReadOnly then return some (.error .readOnly)
    return some (← Eval.setVariable s v)
  | member _ container selector, v => do
    if (← get).scope.isReadOnly then return some (.error .readOnly)
    let c ← eval host container
    let key ← selectorKey host selector
    match ← Eval.setMember c key v with
    | .error refusal => return some (.error refusal)
    | .ok changed =>
      if changed.isReference then return some (.ok ())
      Eval.store container.text (write host container) changed
      return some (.ok ())
  | _, _ => return none

end

end Tree

end Formulae
