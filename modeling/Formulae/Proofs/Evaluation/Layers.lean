import Formulae.Proofs.Evaluation.Overlay
import Formulae.Proofs.Evaluation.Place

/-!
Writes through layers.

A layer takes the writes to its names before anything beneath it is asked. So the names of
the layers above the topmost read-only one take writes although the scope counts as
read-only; all other writes through such a scope are refused. That evaluation writes none of
these names either is due to the evaluation, which asks the scope first.
-/

namespace Formulae

open Eval

namespace Scope

/-- Whether a layer above every read-only one binds the name. -/
def isOverlaid (name : String) : Scope → Bool
  | store _ => false
  | overlay bindings below => bindings.contains name || below.isOverlaid name
  | readOnly _ => false

/-- How a write goes: to a layer, or nowhere, or to the variables. -/
def verdict (name : String) (v : Value) (s : Scope) : Except Refusal Unit :=
  if s.isOverlaid name then .ok ()
  else if s.isReadOnly then .error .readOnly
  else (s.vars.set name v).map fun _ => ()

theorem set_verdict (s : Scope) (name : String) (v : Value) :
    (s.set name v).map (fun _ => ()) = s.verdict name v := by
  induction s with
  | store vars =>
    change ((vars.set name v).map store).map _ = (vars.set name v).map _
    cases vars.set name v <;> rfl
  | overlay bindings below inductionHypothesis =>
    unfold set
    by_cases bound : bindings.contains name
    · rw [if_pos bound, verdict, isOverlaid, bound, Bool.true_or, if_pos rfl]
      rfl
    · rw [if_neg bound]
      rw [Bool.not_eq_true] at bound
      have same : (overlay bindings below).verdict name v = below.verdict name v := by
        rw [verdict, verdict, isOverlaid, bound, Bool.false_or, isReadOnly, vars]
      rw [same, ← inductionHypothesis]
      cases below.set name v <;> rfl
  | readOnly below => rfl

theorem BoundAlike.get {s : String} {a b : Scope} (alike : BoundAlike s a b) :
    b.get s = a.get s := by
  induction alike with
  | store same =>
    change Variables.get _ s = Variables.get _ s
    rw [Variables.get, Variables.get, same]
  | overlay same _ inductionHypothesis =>
    rw [Scope.get, Scope.get, same, inductionHypothesis]
  | readOnly _ inductionHypothesis => exact inductionHypothesis

end Scope

/-- A write of a name succeeds where a layer above every read-only one binds the name. Otherwise
it is refused in a read-only scope, and in any other scope it goes as it does for the variables
alone. A write that succeeds is seen under its name only, as the value that the name holds.
A write that does not succeed changes nothing. No write changes whether the scope is read-only. -/
theorem setVariable_through_layers (name : String) (v : Value) (w : World) :
    ∃ after, setVariable name v w = .ok (w.scope.verdict name v) { w with scope := after } ∧
      after.isReadOnly = w.scope.isReadOnly ∧
      (w.scope.verdict name v = .ok () → after.get name = w.scope.taken name v ∧
        ∀ other, other ≠ name → after.get other = w.scope.get other) ∧
      (w.scope.verdict name v ≠ .ok () → after = w.scope) := by
  rw [← w.scope.set_verdict, setVariable_apply]
  cases written : w.scope.set name v with
  | ok after =>
    refine ⟨after, rfl, Scope.isReadOnly_set written, fun _ => ⟨Scope.get_set written, ?_⟩, ?_⟩
    · intro other apart
      exact (Scope.boundAlike_set written apart).get
    · intro refused
      exact absurd rfl refused
  | error refusal =>
    refine ⟨w.scope, rfl, rfl, fun accepted => ?_, fun _ => rfl⟩
    cases accepted

/-- A layer over a read-only view takes a write. -/
theorem setVariable_through_layers_of_view :
    let s : Scope := .overlay (.ofList [("a", Value.int 1)])
      (.readOnly (.store (.ofList [("b", Variable.mk (.int 0) false none)])))
    s.isReadOnly = true ∧ s.verdict "b" (.int 2) = .error .readOnly ∧
      ∃ after, setVariable "a" (.int 2) ⟨s, {}, ∅⟩ = .ok (.ok ()) ⟨after, {}, ∅⟩ ∧
        after.isReadOnly = true ∧ after.get "a" = .int 2 ∧ after.get "b" = .int 0 := by
  intro s
  obtain ⟨after, written, readOnly, seen, _⟩ :=
    setVariable_through_layers "a" (.int 2) ⟨s, {}, ∅⟩
  obtain ⟨now, elsewhere⟩ := seen rfl
  exact ⟨rfl, rfl, after, written, readOnly, now, elsewhere "b" (by decide)⟩

end Formulae
