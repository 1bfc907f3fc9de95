import Formulae.Evaluation.Basic

/-!
What evaluations come to.

An evaluation ends in a world whether it succeeds or fails. That a compound evaluation
succeeds is stated through the success of its parts, one equivalence for each operation.
-/

namespace Formulae

/-- Two worlds with the same variables, layers and objects. How often providers have been
read may differ. -/
def World.SameState (u v : World) : Prop := v.scope = u.scope ∧ v.heap = u.heap

namespace World.SameState

theorem refl (w : World) : w.SameState w := ⟨rfl, rfl⟩

theorem symm {u v : World} (same : u.SameState v) : v.SameState u := ⟨same.1.symm, same.2.symm⟩

theorem trans {u v w : World} (first : u.SameState v) (second : v.SameState w) : u.SameState w :=
  ⟨second.1.trans first.1, second.2.trans first.2⟩

end World.SameState

namespace Eval

variable {α β : Type}

/-- The world in which an evaluation ends, with a result or with an error. -/
def final (act : Eval α) (w : World) : World :=
  match act w with
  | .ok _ w => w
  | .error _ w => w

theorem final_bind (act : Eval α) (next : α → Eval β) (w : World) :
    (act >>= next).final w =
      match act w with
      | .ok a v => (next a).final v
      | .error _ v => v := by
  change final (EStateM.bind act next) w = _
  unfold final EStateM.bind
  cases act w <;> rfl

theorem get_bind (next : World → Eval β) (w : World) : (get >>= next) w = next w w := rfl

theorem member_apply (container key : Value) (w : World) :
    member container key w =
      if (container.lookup w.heap key).isEmpty then
        .error (.noMember container.typeName key.text) w
      else .ok (container.lookup w.heap key) w := by
  change (if (container.lookup w.heap key).isEmpty then _ else _ : Eval Value) w = _
  split <;> rfl

theorem setVariable_apply (name : String) (v : Value) (w : World) :
    setVariable name v w =
      match w.scope.set name v with
      | .ok scope => .ok (.ok ()) { w with scope }
      | .error refusal => .ok (.error refusal) w := by
  change (match w.scope.set name v with | .ok _ => _ | .error _ => _ : Eval _) w = _
  cases w.scope.set name v <;> rfl

theorem setMember_apply (container key v : Value) (w : World) :
    setMember container key v w =
      match container.setMember w.heap key v with
      | .done (changed, heap) => .ok (.ok changed) { w with heap }
      | .refused refusal _ => .ok (.error refusal) w := by
  have atomic := Value.atomic_setMember w.heap container key v
  rw [setMember, get_bind]
  cases outcome : container.setMember w.heap key v with
  | done => rfl
  | refused refusal left =>
    rw [outcome] at atomic
    cases atomic
    rfl

@[simp] theorem final_member (container key : Value) (w : World) :
    (member container key).final w = w := by
  unfold final
  rw [member_apply]
  split <;> rename_i outcome <;> split at outcome <;> cases outcome <;> rfl

theorem final_under (layer : Scope → Scope) (act : Eval α) (w : World) :
    (under layer act).final w =
      let inner := act.final { w with scope := layer w.scope }
      { inner with scope := inner.scope.beneath } := by
  unfold under final
  dsimp only
  cases act { w with scope := layer w.scope } <;> rfl

theorem bind_eq_ok_iff {act : Eval α} {next : α → Eval β} {w w' : World} {b : β} :
    (act >>= next) w = .ok b w' ↔ ∃ a v, act w = .ok a v ∧ next a v = .ok b w' := by
  change EStateM.bind act next w = _ ↔ _
  unfold EStateM.bind
  cases act w with
  | ok a v =>
    constructor
    · exact fun succeeds => ⟨a, v, rfl, succeeds⟩
    · rintro ⟨_, _, same, succeeds⟩
      cases same
      exact succeeds
  | error e v => simp

theorem map_eq_ok_iff {f : α → β} {act : Eval α} {w w' : World} {b : β} :
    (f <$> act) w = .ok b w' ↔ ∃ a, act w = .ok a w' ∧ f a = b := by
  change EStateM.map f act w = _ ↔ _
  unfold EStateM.map
  cases act w with
  | ok a v =>
    constructor
    · rintro ⟨⟩
      exact ⟨a, rfl, rfl⟩
    · rintro ⟨_, ⟨⟩, rfl⟩
      rfl
  | error e v => simp

@[simp] theorem pure_eq_ok_iff {a b : α} {w w' : World} :
    (pure a : Eval α) w = .ok b w' ↔ b = a ∧ w' = w := by
  change EStateM.Result.ok a w = _ ↔ _
  simp [eq_comm]

@[simp] theorem throw_ne_ok {e : EvalError} {w w' : World} {a : α} :
    (throw e : Eval α) w ≠ .ok a w' := by
  change EStateM.Result.error e w ≠ _
  simp

@[simp] theorem get_eq_ok_iff {w v w' : World} :
    (get : Eval World) w = .ok v w' ↔ v = w ∧ w' = w := by
  change EStateM.Result.ok w w = _ ↔ _
  simp [eq_comm]

@[simp] theorem set_eq_ok_iff {v w w' : World} {a : PUnit} :
    (set v : Eval PUnit) w = .ok a w' ↔ w' = v := by
  change EStateM.Result.ok PUnit.unit v = _ ↔ _
  simp [eq_comm]

theorem member_eq_ok_iff {container key found : Value} {w w' : World} :
    member container key w = .ok found w' ↔
      container.lookup w.heap key = found ∧ found.isEmpty = false ∧ w' = w := by
  rw [member_apply]
  split
  · next absent =>
    simp only [reduceCtorEq, false_iff]
    rintro ⟨rfl, present, _⟩
    rw [absent] at present
    cases present
  · next present =>
    simp only [EStateM.Result.ok.injEq]
    constructor
    · rintro ⟨rfl, rfl⟩
      exact ⟨rfl, by simpa using present, rfl⟩
    · rintro ⟨rfl, _, rfl⟩
      exact ⟨rfl, rfl⟩

theorem setVariable_eq_ok_iff {name : String} {v : Value} {w w' : World} :
    setVariable name v w = .ok (.ok ()) w' ↔
      ∃ scope, w.scope.set name v = .ok scope ∧ w' = { w with scope } := by
  rw [setVariable_apply]
  cases w.scope.set name v <;> simp [eq_comm]

theorem setMember_eq_ok_iff {container key v changed : Value} {w w' : World} :
    setMember container key v w = .ok (.ok changed) w' ↔
      ∃ heap, container.setMember w.heap key v = .done (changed, heap) ∧
        w' = { w with heap } := by
  rw [setMember_apply]
  cases container.setMember w.heap key v with
  | done written =>
    obtain ⟨container, heap⟩ := written
    constructor
    · rintro ⟨⟩
      exact ⟨heap, rfl, rfl⟩
    · rintro ⟨_, ⟨⟩, rfl⟩
      rfl
  | refused refusal => simp

theorem store_eq_ok_iff {target : String} {write : Value → Eval Attempt} {v : Value}
    {w w' : World} {u : Unit} :
    store target write v w = .ok u w' ↔ write v w = .ok (some (.ok ())) w' := by
  unfold store
  rw [bind_eq_ok_iff]
  constructor
  · rintro ⟨attempt, reached, written, rest⟩
    rcases attempt with _ | _ | _ <;> simp at rest
    rw [rest]
    exact written
  · exact fun written => ⟨_, _, written, by simp⟩

theorem update_eq_ok_iff {target : String} {read : Eval Value} {change : Value → Eval Value}
    {write : Value → Eval Attempt} {w w' : World} {old new : Value} :
    update target read change write w = .ok (old, new) w' ↔
      ∃ v u, read w = .ok old v ∧ change old v = .ok new u ∧
        write new u = .ok (some (.ok ())) w' := by
  unfold update
  simp only [bind_eq_ok_iff, store_eq_ok_iff, pure_eq_ok_iff, Prod.mk.injEq]
  constructor
  · rintro ⟨_, v, reads, _, u, changes, _, _, writes, ⟨rfl, rfl⟩, rfl⟩
    exact ⟨v, u, reads, changes, writes⟩
  · rintro ⟨v, u, reads, changes, writes⟩
    exact ⟨_, v, reads, _, u, changes, (), _, writes, ⟨rfl, rfl⟩, rfl⟩

end Eval

end Formulae
