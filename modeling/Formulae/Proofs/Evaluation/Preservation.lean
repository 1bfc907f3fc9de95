import Formulae.Proofs.Evaluation.Sequence

/-!
What every evaluation preserves.

A law relates the world before an evaluation to the world after it. It has to hold of
the three operations that change a world: reading a provider and, where the scope is not
read-only, writing a variable or a member. `Law.eval` and `Law.write` carry it over to
every tree.
-/

namespace Formulae

namespace Eval

variable {α β : Type}

/-- Whatever the world, the evaluation ends in a related one. -/
def Keeps (R : World → World → Prop) (act : Eval α) : Prop := ∀ w, R w (act.final w)

theorem Keeps.bind {R : World → World → Prop} (trans : ∀ {u v w}, R u v → R v w → R u w)
    {act : Eval α} {next : α → Eval β} (first : Keeps R act) (second : ∀ a, Keeps R (next a)) :
    Keeps R (act >>= next) := by
  intro w
  have reached := first w
  rw [final_bind]
  unfold final at reached
  split <;> rename_i outcome <;> rw [outcome] at reached
  · exact trans reached (second _ _)
  · exact reached

/-- Where the scope takes writes, the evaluation ends in a related world. -/
def KeepsOpen (R : World → World → Prop) (act : Eval α) : Prop :=
  ∀ w, w.scope.isReadOnly = false → R w (act.final w)

/-- A relation between the world before an evaluation and the world after it. -/
structure Law (R : World → World → Prop) : Prop where
  refl : ∀ w, R w w
  trans : ∀ {u v w}, R u v → R v w → R u w
  isReadOnly : ∀ {u v}, R u v → v.scope.isReadOnly = u.scope.isReadOnly
  provide : ∀ p, Keeps R (provide p)
  setVariable : ∀ name v, KeepsOpen R (setVariable name v)
  setMember : ∀ container key v, KeepsOpen R (setMember container key v)

namespace Law

variable {R : World → World → Prop} (law : Law R)

include law

theorem still {act : Eval α} (unchanged : ∀ w, act.final w = w) : Keeps R act := by
  intro w
  rw [unchanged]
  exact law.refl w

theorem sequential : Sequential (Keeps R) where
  pure _ := law.still fun _ => rfl
  throw _ := law.still fun _ => rfl
  bind first second := Keeps.bind @law.trans first second
  provide := law.provide
  member _ _ := law.still (final_member _ _)

theorem bindOpen {act : Eval α} {next : α → Eval β} (first : KeepsOpen R act)
    (second : ∀ a, KeepsOpen R (next a)) : KeepsOpen R (act >>= next) := by
  intro w writable
  have reached := first w writable
  rw [final_bind]
  unfold final at reached
  split <;> rename_i outcome <;> rw [outcome] at reached
  · exact law.trans reached (second _ _ ((law.isReadOnly reached).trans writable))
  · exact reached

theorem sequentialOpen : Sequential (KeepsOpen R) where
  pure a w _ := law.sequential.pure a w
  throw other w _ := law.sequential.throw other w
  bind := law.bindOpen
  provide p w _ := law.provide p w
  member container key w _ := law.sequential.member container key w

/-- A write that is refused in a read-only scope has to keep the law in the others only. -/
theorem guarded {act : Eval α} {refused : α} (writes : KeepsOpen R act) :
    Keeps R (do if (← get).scope.isReadOnly then return refused else act) := by
  intro w
  have reached : (get : Eval World) w = .ok w w := rfl
  rw [final_bind, reached]
  dsimp only
  cases readOnly : w.scope.isReadOnly with
  | true => exact law.refl w
  | false => exact writes w readOnly

theorem store {target : String} {write : Value → Eval Attempt} {v : Value}
    (writes : Keeps R (write v)) : Keeps R (store target write v) :=
  law.sequential.store writes (law.still fun _ => rfl)

variable (host : Host)

theorem eval_and_write (t : Tree) :
    Keeps R (t.eval host) ∧ ∀ v, Keeps R (t.write host v) := by
  induction t using Tree.induction_children with
  | step t children =>
    have values (child : Tree) (inside : child ∈ t.children) := (children child inside).1
    constructor
    · refine law.sequential.eval (fun _ _ same => ?_) values fun target isTarget v => ?_
      · rw [same]
        exact law.still fun _ => rfl
      · exact law.store ((children target (Tree.mem_children_of_target? isTarget)).2 v)
    · intro v
      refine law.sequentialOpen.write (law.still fun _ => rfl) (fun _ => law.guarded)
        (fun _ s _ => law.setVariable s v) (fun container key => law.setMember container key _)
        (fun child inside w _ => values child inside w) ?_
      rintro mark container selector rfl changed w _
      exact law.store ((children container (.head _)).2 changed) w

/-- Every evaluation of a tree keeps a law. -/
theorem eval (t : Tree) : Keeps R (t.eval host) := (law.eval_and_write host t).1

/-- Every write through a target keeps a law. -/
theorem write (t : Tree) (v : Value) : Keeps R (t.write host v) := (law.eval_and_write host t).2 v

end Law

end Eval

end Formulae
