import Formulae.Proofs.Evaluation.Outcome

/-!
Slots: the places that a variable and a list of keys lead to.

Keys lead from a value inward. A new value put into a slot changes the containers around
it from the inside out, up to the innermost shared object or, without one, to the
variable.
-/

namespace Formulae

namespace Value

/-- The member at a key, unless it is absent. -/
def present? (heap : Heap) (container key : Value) : Option Value :=
  if (container.lookup heap key).isEmpty then none else some (container.lookup heap key)

/-- What the keys lead to. -/
def readAt? (heap : Heap) : Value → List Value → Option Value
  | container, [] => some container
  | container, k :: ks => (container.present? heap k).bind fun inner => readAt? heap inner ks

/-- Replaces a member. An object is written in place, and no changed container is left to
be stored around it. -/
def replace? (heap : Heap) (container key v : Value) : Option (Option Value × Heap) :=
  match container.setMember heap key v with
  | .done (changed, heap) => some (if changed.isReference then none else some changed, heap)
  | .refused .. => none

/-- Puts a new value where the keys lead. -/
def putAt? (heap : Heap) : Value → List Value → Value → Option (Option Value × Heap)
  | _, [], new => some (some new, heap)
  | container, [k], new => container.replace? heap k new
  | container, k :: ks, new =>
    (container.present? heap k).bind fun inner =>
      (putAt? heap inner ks new).bind fun
        | (none, heap) => some (none, heap)
        | (some changed, heap) => container.replace? heap k changed

theorem readAt?_append (heap : Heap) (container k : Value) (ks : List Value) :
    container.readAt? heap (ks ++ [k]) =
      (container.readAt? heap ks).bind fun inner => inner.present? heap k := by
  induction ks generalizing container with
  | nil => cases container.present? heap k <;> simp [readAt?, *]
  | cons first ks inductionHypothesis =>
    simp only [List.cons_append, readAt?, inductionHypothesis, Option.bind_assoc]

theorem putAt?_cons {heap : Heap} {container k new : Value} {ks : List Value} (more : ks ≠ []) :
    container.putAt? heap (k :: ks) new =
      (container.present? heap k).bind fun inner =>
        (inner.putAt? heap ks new).bind fun
          | (none, heap) => some (none, heap)
          | (some changed, heap) => container.replace? heap k changed := by
  cases ks with
  | nil => exact absurd rfl more
  | cons => rfl

theorem map_eq_ok_iff {α β : Type} {x : Except Refusal α} {f : α → β} {b : β} :
    x.map f = .ok b ↔ ∃ a, x = .ok a ∧ f a = b := by
  cases x <;> simp [Except.map]

theorem isReference_of_withMember {container key v changed : Value}
    (written : container.withMember key v = .done changed) :
    changed.isReference = container.isReference := by
  cases container with
  | list items =>
    unfold withMember at written
    dsimp only at written
    split at written
    · split at written <;> cases written
      rfl
    · cases written
  | color | vector2 | vector3 | vector4 | quaternion =>
    obtain ⟨_, _, rfl⟩ := Write.map_eq_done_iff.mp written
    rfl
  | _ => cases written

theorem setMember_of_value {container : Value} (value : container.isReference = false)
    (heap : Heap) (key v : Value) :
    container.setMember heap key v =
      (container.withMember key v).map fun changed => (changed, heap) := by
  cases container <;> first | rfl | cases value

/-- A field of an object is written, or an element of a value, which leaves the heap. -/
theorem setMember_eq_done_iff {heap after : Heap} {container key v changed : Value} :
    container.setMember heap key v = .done (changed, after) ↔
      (∃ ref name, container = object ref ∧ key = string name ∧ changed = object ref ∧
        heap.write ref name v = .ok after) ∨
      container.isReference = false ∧ container.withMember key v = .done changed ∧
        after = heap := by
  cases reference : container.isReference with
  | false =>
    rw [setMember_of_value reference, Write.map_eq_done_iff]
    constructor
    · rintro ⟨_, result, ⟨⟩⟩
      exact .inr ⟨rfl, result, rfl⟩
    · rintro (⟨_, _, rfl, _⟩ | ⟨_, result, rfl⟩)
      · cases reference
      · exact ⟨_, result, rfl⟩
  | true =>
    obtain ⟨ref, rfl⟩ : ∃ ref, container = object ref := by
      cases container <;> first | exact ⟨_, rfl⟩ | cases reference
    cases key with
    | string name =>
      unfold setMember
      cases writes : heap.write ref name v with
      | ok heap' => simp [writes, eq_comm]
      | error => simp [writes]
    | _ => simp [setMember]

/-- Only a write to an object changes the heap. -/
theorem heap_of_setMember {heap after : Heap} {container key v changed : Value}
    (written : container.setMember heap key v = .done (changed, after))
    (value : changed.isReference = false) : after = heap := by
  obtain ⟨_, _, _, _, rfl, _⟩ | ⟨_, _, same⟩ := setMember_eq_done_iff.mp written
  · cases value
  · exact same

theorem isReference_of_setMember {heap after : Heap} {container key v changed : Value}
    (written : container.setMember heap key v = .done (changed, after)) :
    changed.isReference = container.isReference := by
  obtain ⟨_, _, rfl, _, rfl, _⟩ | ⟨_, result, _⟩ := setMember_eq_done_iff.mp written
  · rfl
  · exact isReference_of_withMember result

/-- A container that is left as a reference is an object, of which a field was written. -/
theorem write_of_setMember {heap after : Heap} {container key v changed : Value}
    (written : container.setMember heap key v = .done (changed, after))
    (reference : changed.isReference = true) :
    ∃ ref name, container = object ref ∧ key = string name ∧ changed = object ref ∧
      heap.write ref name v = .ok after := by
  rw [isReference_of_setMember written] at reference
  obtain written | ⟨value, _⟩ := setMember_eq_done_iff.mp written
  · exact written
  · rw [value] at reference
    cases reference

theorem heap_of_replace? {heap after : Heap} {container key v changed : Value}
    (replaced : container.replace? heap key v = some (some changed, after)) : after = heap := by
  unfold replace? at replaced
  split at replaced
  · next written =>
    split at replaced
    · simp at replaced
    · next value =>
      simp only [Option.some.injEq, Prod.mk.injEq] at replaced
      rw [← replaced.2]
      exact heap_of_setMember written (by simpa using value)
  · cases replaced

/-- The last key decides what is replaced, and the keys before it where the changed
container goes. -/
theorem putAt?_append (heap : Heap) (container k new : Value) (ks : List Value) :
    container.putAt? heap (ks ++ [k]) new =
      (container.readAt? heap ks).bind fun inner =>
        (inner.replace? heap k new).bind fun
          | (none, heap) => some (none, heap)
          | (some changed, _) => container.putAt? heap ks changed := by
  induction ks generalizing container with
  | nil =>
    simp only [List.nil_append, putAt?, readAt?, Option.bind_some]
    cases replaced : container.replace? heap k new with
    | none => rfl
    | some written =>
      obtain ⟨_ | changed, after⟩ := written
      · rfl
      · rw [heap_of_replace? replaced]
        rfl
  | cons first ks inductionHypothesis =>
    rw [List.cons_append, putAt?_cons (by simp), readAt?]
    cases found : container.present? heap first with
    | none => rfl
    | some inner =>
      simp only [Option.bind_some, inductionHypothesis, Option.bind_assoc]
      congr 1
      funext last
      congr 1
      funext written
      obtain ⟨_ | changed, after⟩ := written
      · rfl
      · cases ks with
        | nil => rfl
        | cons second ks =>
          dsimp only
          rw [putAt?_cons (k := first) (by simp), found]
          rfl

end Value

namespace World

/-- The value in the slot that a variable and keys lead to. -/
def slot? (w : World) (name : String) (ks : List Value) : Option Value :=
  (w.scope.get name).readAt? w.heap ks

/-- The world with a new value in the slot that a variable and keys lead to. -/
def putSlot? (w : World) (name : String) (ks : List Value) (new : Value) : Option World :=
  match (w.scope.get name).putAt? w.heap ks new with
  | some (none, heap) => some { w with heap }
  | some (some changed, heap) =>
    match w.scope.set name changed with
    | .ok scope => some { w with scope, heap }
    | .error _ => none
  | none => none

end World

end Formulae
