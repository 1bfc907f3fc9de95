import Formulae.Evaluation.Error
import Formulae.Host.Provider
import Formulae.Scope.Basic
import Formulae.Value.Member

/-!
What an evaluation reads and changes: a scope, the objects that values refer to, and
how often each provider has been read.

A failed evaluation keeps the writes it made before it failed.
-/

namespace Formulae

structure World where
  scope : Scope
  heap : Heap := {}
  /-- How often each provider has been read. -/
  reads : Std.TreeMap Nat Nat := ∅

/-- An evaluation: it changes the world and gives a result or an error. -/
abbrev Eval := EStateM EvalError World

/-- How writing through a target went; `none` if it is no place that holds a value. -/
abbrev Attempt := Option (Except Refusal Unit)

namespace Eval

/-- The value that a provider gives this time. -/
def provide (p : Provider) : Eval Value := do
  let world ← get
  let count := world.reads.getD p.index 0
  set { world with reads := world.reads.insert p.index (count + 1) }
  return p.value count

def ofExcept {α : Type} : Except EvalError α → Eval α
  | .ok a => pure a
  | .error e => throw e

/-- Writes a variable; a refusal changes nothing. -/
def setVariable (name : String) (v : Value) : Eval (Except Refusal Unit) := do
  let world ← get
  match world.scope.set name v with
  | .ok scope =>
    set { world with scope }
    return .ok ()
  | .error refusal => return .error refusal

/-- The member at a key; an error if it is absent. -/
def member (container key : Value) : Eval Value := do
  let found := container.lookup (← get).heap key
  if found.isEmpty then throw (.noMember container.typeName key.text)
  return found

/-- Writes a member and gives the container as it then is. What a write that is refused
leaves of the container is dropped. -/
def setMember (container key v : Value) : Eval (Except Refusal Value) := do
  let world ← get
  match container.setMember world.heap key v with
  | .done (container, heap) =>
    set { world with heap }
    return .ok container
  | .refused refusal (_, heap) =>
    set { world with heap }
    return .error refusal

/-- Writes a value, and makes an error that names the target of a write that fails. -/
def store (target : String) (write : Value → Eval Attempt) (v : Value) : Eval Unit := do
  match ← write v with
  | none => throw (.unassignable target)
  | some (.error refusal) => throw (.refused target v.kind refusal)
  | some (.ok ()) => return ()

/-- Reads a value, changes it and writes it; gives the old value and the new one. -/
def update (target : String) (read : Eval Value) (change : Value → Eval Value)
    (write : Value → Eval Attempt) : Eval (Value × Value) := do
  let old ← read
  let new ← change old
  store target write new
  return (old, new)

/-- Runs with the scope changed by `layer`, and takes the top layer off again. -/
def under {α : Type} (layer : Scope → Scope) (act : Eval α) : Eval α := fun world =>
  let restore (world : World) : World := { world with scope := world.scope.beneath }
  match act { world with scope := layer world.scope } with
  | .ok a world => .ok a (restore world)
  | .error e world => .error e (restore world)

end Eval

end Formulae
