import Formulae.Proofs.Evaluation.Sequence

/-!
Two runs of a tree, side by side.

A simulation relates the worlds of a first run to those of a second one. Related worlds
read alike. Either both take writes, which keep them related, or the first run gives up
at its first write, and nothing is said of the second run from there on. `Simulation.eval`
carries all of this over to every tree.
-/

namespace Formulae

namespace World

variable {α β : Type} {R : World → World → Prop} {givesUp : EvalError → Prop}

/-- The runs came to the same in related worlds, or the first one gave up. -/
inductive Abeam (R : World → World → Prop) (givesUp : EvalError → Prop) :
    EStateM.Result EvalError World α → EStateM.Result EvalError World α → Prop
  | ok {u v : World} (a : α) (related : R u v) : Abeam R givesUp (.ok a u) (.ok a v)
  | error {u v : World} (e : EvalError) (related : R u v) :
      Abeam R givesUp (.error e u) (.error e v)
  | lost {e : EvalError} {u : World} {other : EStateM.Result EvalError World α}
      (lost : givesUp e) : Abeam R givesUp (.error e u) other

/-- What comes next is compared in the worlds that the first part ends in. -/
theorem Abeam.bind {act : Eval α} {next : α → Eval β} {u v : World}
    (first : Abeam R givesUp (act u) (act v))
    (second : ∀ a u v, R u v → Abeam R givesUp (next a u) (next a v)) :
    Abeam R givesUp ((act >>= next) u) ((act >>= next) v) := by
  change Abeam R givesUp (EStateM.bind act next u) (EStateM.bind act next v)
  unfold EStateM.bind
  generalize act u = x, act v = y at first
  cases first with
  | ok a related => exact second a _ _ related
  | error e related => exact .error e related
  | lost lost => exact .lost lost

end World

namespace Eval

variable {α β : Type} {R : World → World → Prop} {givesUp : EvalError → Prop}

/-- From related worlds the evaluation goes the same way. -/
def Parallel (R : World → World → Prop) (givesUp : EvalError → Prop) (act : Eval α) : Prop :=
  ∀ u v, R u v → World.Abeam R givesUp (act u) (act v)

namespace Parallel

theorem pure (a : α) : Parallel R givesUp (pure a) := fun _ _ related => .ok a related

theorem throw (e : EvalError) : Parallel R givesUp (throw e : Eval α) :=
  fun _ _ related => .error e related

theorem bind {act : Eval α} {next : α → Eval β} (first : Parallel R givesUp act)
    (second : ∀ a, Parallel R givesUp (next a)) : Parallel R givesUp (act >>= next) :=
  fun u v related => (first u v related).bind second

end Parallel

/-- What is made of an attempt to store a value. -/
def settle (target : String) (kind : Kind) : Attempt → Eval Unit
  | none => throw (.unassignable target)
  | some (.error refusal) => throw (.refused target kind refusal)
  | some (.ok ()) => return ()

theorem store_eq (target : String) (write : Value → Eval Attempt) (v : Value) :
    store target write v = write v >>= settle target v.kind := rfl

theorem Parallel.settle (target : String) (kind : Kind) :
    ∀ attempt, Parallel R givesUp (settle target kind attempt)
  | none => .throw _
  | some (.error _) => .throw _
  | some (.ok ()) => .pure ()

/-- Related worlds take writes, and are related again behind them. -/
structure Writes (R : World → World → Prop) (givesUp : EvalError → Prop) : Prop where
  isReadOnly : ∀ {u v}, R u v → u.scope.isReadOnly = false ∧ v.scope.isReadOnly = false
  setVariable : ∀ s v, Parallel R givesUp (setVariable s v)
  setHeap : ∀ {u v}, R u v → ∀ heap, R { u with heap } { v with heap }

/-- The first of related worlds takes no writes, and its run gives up at one. -/
structure Refuses (R : World → World → Prop) (givesUp : EvalError → Prop) : Prop where
  isReadOnly : ∀ {u v}, R u v → u.scope.isReadOnly = true
  givesUp : ∀ target kind, givesUp (.refused target kind .readOnly)

/-- A relation between the worlds of two runs, of which the first gives up with some errors. -/
structure Simulation (R : World → World → Prop) (givesUp : EvalError → Prop) : Prop where
  get : ∀ {u v}, R u v → ∀ s, u.scope.get s = v.scope.get s
  heap : ∀ {u v}, R u v → u.heap = v.heap
  reads : ∀ {u v}, R u v → u.reads = v.reads
  count : ∀ {u v}, R u v → ∀ reads, R { u with reads } { v with reads }
  writes : Writes R givesUp ∨ Refuses R givesUp

namespace Simulation

variable (simulation : Simulation R givesUp)

include simulation

theorem provide (p : Provider) : Parallel R givesUp (provide p) := by
  intro u v related
  have same := simulation.reads related
  change World.Abeam R givesUp (.ok (p.value (u.reads.getD p.index 0)) { u with reads := _ })
    (.ok (p.value (v.reads.getD p.index 0)) { v with reads := _ })
  rw [same]
  exact .ok _ (simulation.count related _)

theorem name (s : String) :
    Parallel R givesUp (do return (← MonadState.get).scope.get s : Eval Value) := by
  intro u v related
  change World.Abeam R givesUp (.ok (u.scope.get s) u) (.ok (v.scope.get s) v)
  rw [simulation.get related s]
  exact .ok _ related

theorem member (container key : Value) : Parallel R givesUp (member container key) := by
  intro u v related
  rw [member_apply, member_apply, simulation.heap related]
  split
  · exact .error _ related
  · exact .ok _ related

theorem setMember (writes : Writes R givesUp) (container key v : Value) :
    Parallel R givesUp (setMember container key v) := by
  intro u w related
  rw [setMember_apply, setMember_apply, simulation.heap related]
  split
  · exact .ok _ (writes.setHeap related _)
  · exact .ok _ related

/-- A write that is made where the scope takes writes, and settled. -/
theorem guarded {act : Eval Attempt} (target : String) (kind : Kind)
    (stores : Writes R givesUp → Parallel R givesUp (act >>= settle target kind)) :
    Parallel R givesUp ((do
      if (← MonadState.get).scope.isReadOnly then return some (.error .readOnly)
      act : Eval Attempt) >>= settle target kind) := by
  intro u v related
  have unfolded (w : World) : ((do
      if (← MonadState.get).scope.isReadOnly then return some (.error .readOnly)
      act : Eval Attempt) >>= settle target kind) w =
      if w.scope.isReadOnly then .error (.refused target kind .readOnly) w
      else (act >>= settle target kind) w := by
    change ((if w.scope.isReadOnly then pure (some (.error .readOnly)) else act : Eval Attempt) >>=
      settle target kind) w = _
    split <;> rfl
  rw [unfolded, unfolded]
  rcases simulation.writes with writes | refuses
  · obtain ⟨writable, writable'⟩ := writes.isReadOnly related
    rw [writable, writable']
    exact stores writes u v related
  · rw [refuses.isReadOnly related]
    exact .lost (refuses.givesUp target kind)

theorem sequential : Sequential (Parallel R givesUp) where
  pure := .pure
  throw _ := .throw _
  bind := .bind
  provide := simulation.provide
  member := simulation.member

/-- What the second of two runs that both take writes does beside the first. -/
theorem sequentialWrites : Sequential fun act => Writes R givesUp → Parallel R givesUp act where
  pure a _ := .pure a
  throw _ _ := .throw _
  bind first second writes := (first writes).bind fun a => second a writes
  provide p _ := simulation.provide p
  member container key _ := simulation.member container key

variable (host : Host)

theorem eval_and_store (t : Tree) : Parallel R givesUp (t.eval host) ∧
    ∀ target v, Parallel R givesUp (store target (t.write host) v) := by
  induction t using Tree.induction_children with
  | step t children =>
    have values (child : Tree) (inside : child ∈ t.children) := (children child inside).1
    constructor
    · refine simulation.sequential.eval ?_ values fun target isTarget =>
        (children target (Tree.mem_children_of_target? isTarget)).2 _
      rintro _ s rfl
      rw [Tree.eval]
      exact simulation.name s
    · intro target v
      rw [store_eq]
      -- A write that is refused gives up when it is settled, and not before.
      refine simulation.sequentialWrites.write
        (Q := fun act => Parallel R givesUp (act >>= settle target v.kind)) (.throw _) ?_
        (fun _ s _ writes => writes.setVariable s v)
        (fun container key writes => simulation.setMember writes container key v)
        (fun child inside _ => values child inside) ?_
      · exact fun _ stores => simulation.guarded target v.kind fun writes =>
          (stores writes).bind (.settle target v.kind)
      · rintro _ container _ rfl changed _
        exact (children container (.head _)).2 _ changed

/-- The two runs of a tree go the same way, up to where the first one gives up. -/
theorem eval (t : Tree) : Parallel R givesUp (t.eval host) := (simulation.eval_and_store host t).1

end Simulation

end Eval

end Formulae
