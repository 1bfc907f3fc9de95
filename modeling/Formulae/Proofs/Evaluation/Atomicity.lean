import Formulae.Proofs.Evaluation.Place

/-!
Writes through targets, all or nothing.

Where reading the containers and the keys of a target changes nothing, a write that fails
or is refused changes nothing either, and one that succeeds has changed one place. The
containers that a write copies are stored back last, and a shared object is written only
where no container around it is left to store.
-/

namespace Formulae

open Eval

namespace Tree

/-- Whether the node writes to its operand or target. -/
def isWrite : Tree → Bool
  | assign .. | step .. | unary _ (.step _) _ => true
  | _ => false

/-- No node of the tree writes. -/
def Still (t : Tree) : Prop := ∀ u : Tree, u.NodeOf t → u.isWrite = false

theorem isWrite_eq (t : Tree) : t.isWrite = t.target?.isSome := by
  cases t with
  | unary _ op => cases op <;> rfl
  | _ => rfl

theorem Still.target? {t : Tree} (still : t.Still) : t.target? = none := by
  simpa [isWrite_eq] using still t (.root t)

theorem Still.child {t child : Tree} (still : t.Still) (immediate : child ∈ t.children) :
    child.Still := fun u node => still u (.deeper immediate node)

/-- The containers and the keys of a target do not write. A name has none. -/
def Steady : Tree → Prop
  | member _ container selector => container.Still ∧ ∀ key ∈ selector.keys, key.Still
  | _ => True

theorem Still.steady {t : Tree} (still : t.Still) : t.Steady := by
  cases t with
  | member mark container selector =>
    exact ⟨still.child (.head _), fun key member => still.child (.tail _ member)⟩
  | _ => trivial

end Tree

namespace Eval

variable {α β : Type}

/-- The evaluation changes no variable, layer or object. -/
def Quiet (act : Eval α) : Prop := Keeps World.SameState act

theorem Quiet.still {act : Eval α} (unchanged : ∀ w, act.final w = w) : Quiet act := by
  intro w
  rw [unchanged]
  exact .refl w

theorem Quiet.sequential : Sequential Quiet where
  pure _ := .still fun _ => rfl
  throw _ := .still fun _ => rfl
  bind := Keeps.bind @World.SameState.trans
  provide _ _ := ⟨rfl, rfl⟩
  member _ _ := .still (final_member _ _)

end Eval

variable (host : Host)

namespace World

/-- A write that has been made has changed one place; one that has failed or has been
refused has changed nothing. -/
def Atomic (w : World) : EStateM.Result EvalError World Attempt → Prop
  | .ok (some (.ok ())) w' => ∃ place v, w.WroteAt place v w'
  | .ok _ w' | .error _ w' => w.SameState w'

theorem Atomic.of_sameState {u w : World} {outcome : EStateM.Result EvalError World Attempt}
    (same : u.SameState w) (atomic : u.Atomic outcome) : w.Atomic outcome := by
  unfold Atomic at atomic ⊢
  split at atomic
  · obtain ⟨place, v, wrote⟩ := atomic
    exact ⟨place, v, wrote.of_sameState same (.refl _)⟩
  · exact same.symm.trans atomic
  · exact same.symm.trans atomic

theorem Atomic.bind {α : Type} {act : Eval α} {next : α → Eval Attempt} {w : World}
    (quiet : Quiet act) (rest : ∀ a v, w.SameState v → w.Atomic (next a v)) :
    w.Atomic ((act >>= next) w) := by
  have kept := quiet w
  change w.Atomic (EStateM.bind act next w)
  unfold EStateM.bind
  unfold final at kept
  cases reached : act w with
  | ok a v =>
    rw [reached] at kept
    exact rest a v kept
  | error e v =>
    rw [reached] at kept
    exact kept

/-- Storing a changed container back where it came from. -/
theorem Atomic.store {target : String} {write : Value → Eval Attempt} {v : Value} {w : World}
    (atomic : w.Atomic (write v w)) :
    w.Atomic ((do Eval.store target write v; return some (.ok ()) : Eval Attempt) w) := by
  change w.Atomic (EStateM.bind (EStateM.bind (write v) _) _ w)
  unfold EStateM.bind
  cases reached : write v w with
  | error e w' =>
    rw [reached] at atomic
    exact atomic
  | ok attempt w' =>
    rw [reached] at atomic
    match attempt with
    | none | some (.error _) | some (.ok ()) => exact atomic

end World

namespace Tree

/-- A shared object is written in place; every other container is copied, and the copy is
stored by a write of its own. -/
theorem atomic_setMember {container key v : Value} {store : Value → Eval Attempt} {w : World}
    (stores : ∀ changed, w.Atomic (store changed w)) :
    w.Atomic ((do
      match ← setMember container key v with
      | .error refusal => return some (.error refusal)
      | .ok changed =>
        if changed.isReference then return some (.ok ())
        store changed : Eval Attempt) w) := by
  change w.Atomic (EStateM.bind (setMember container key v) _ w)
  unfold EStateM.bind
  rw [setMember_apply]
  cases written : container.setMember w.heap key v with
  | refused => exact .refl w
  | done result =>
    obtain ⟨changed, heap⟩ := result
    dsimp only
    split
    · next reference =>
      obtain ⟨_, _, rfl, rfl, _, writes⟩ := Value.write_of_setMember written reference
      exact ⟨_, _, World.wroteAt_write writes⟩
    · next value =>
      have kept := Value.heap_of_setMember written (by simpa using value)
      subst kept
      exact stores changed

end Tree

end Formulae
