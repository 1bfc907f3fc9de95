import Formulae.Proofs.Evaluation.Place

/-!
Elements: the items of lists and the components of vectors, quaternions and colors.

A write to a member of a value replaces the one element that the key addresses, by the
value as the elements of the container hold it.
-/

namespace Formulae.Value

/-- The position of the element that a key addresses. -/
def address? (container key : Value) : Option Nat :=
  component? (match container with
    | color _ => fun name => (Color.indexOf? name).map Fin.val
    | _ => axis?) key

/-- The value as the elements of a container hold it: a double in vectors and quaternions,
and one that has been rounded to single precision in colors. -/
def taken (container v : Value) : Value :=
  match container with
  | color _ => (v.asFloat?.map fun x => float x.toFloat32.toFloat).getD v
  | vector2 _ | vector3 _ | vector4 _ | quaternion _ => v.asDouble
  | _ => v

/-- The second container is the first with one element replaced. -/
structure ReplacedAt (i : Nat) (new container changed : Value) : Prop where
  kind : changed.kind = container.kind
  bound : (container.element? i).isSome = true
  now : changed.element? i = some new
  elsewhere : ∀ j, j ≠ i → changed.element? j = container.element? j

theorem asDouble_of_asFloat? {v : Value} {x : Float} (number : v.asFloat? = some x) :
    v.asDouble = float x := by
  cases v <;> cases number <;> rfl

theorem asDouble_of_asFloat?_eq_none {v : Value} (other : v.asFloat? = none) :
    v.asDouble = v := by
  cases v <;> first | rfl | cases other

theorem taken_of_asFloat?_eq_none {container v : Value} (other : v.asFloat? = none) :
    container.taken v = v := by
  unfold taken
  split
  · rw [other]
    rfl
  all_goals first | exact asDouble_of_asFloat?_eq_none other | rfl

theorem asFloat?_of_element? {container element : Value} {i : Nat}
    (found : container.element? i = some element) : container.asFloat? = none := by
  cases container <;> first | rfl | cases found

theorem isEmpty_of_element? {container element : Value} {i : Nat}
    (found : container.element? i = some element) : container.isEmpty = false := by
  cases container <;> first | rfl | cases found

theorem writePart_eq_done_iff {α : Type} {n : Nat} {convert : Float → α}
    {parts left : Vector α n} {index : Option Nat} {v : Value} :
    writePart convert parts index v = .done left ↔
      ∃ i, ∃ inside : i < n, ∃ x, index = some i ∧ v.asFloat? = some x ∧
        left = parts.set i (convert x) := by
  cases index with
  | none => simp [writePart]
  | some i =>
    by_cases inside : i < n
    · cases number : v.asFloat? <;> simp [writePart, inside, number, eq_comm]
    · simp only [writePart, dif_neg inside, reduceCtorEq, Option.some.injEq, false_iff]
      rintro ⟨_, inside', _, rfl, _⟩
      exact inside inside'

/-- A channel is written by its name as it is by its index. -/
theorem writeColor_eq (c : Color) (key v : Value) :
    writeColor c key v =
      (writePart Float.toFloat32 c.components ((color c).address? key) v).map
        Color.ofComponents := by
  cases key with
  | string name =>
    change writeChannel c name v =
      (writePart _ c.components ((Color.indexOf? name).map Fin.val) v).map _
    unfold writeChannel
    cases Color.indexOf? name with
    | none => rfl
    | some i =>
      have inside : i.val < 4 := i.isLt
      cases number : v.asFloat? with
      | none => simp [writePart, inside, number, Write.map]
      | some x => simp [writePart, inside, number, Write.map, Color.ofComponents_set]
  | _ => rfl

theorem withMember_color (c : Color) (key v : Value) :
    (color c).withMember key v =
      (writePart Float.toFloat32 c.components ((color c).address? key) v).map
        fun parts => color (.ofComponents parts) := by
  change (writeColor c key v).map color = _
  rw [writeColor_eq, Write.map_map]

/-- The part that is written is replaced in the container that is made of the parts. -/
theorem replacedAt_of_writePart {α : Type} {n : Nat} {convert : Float → α}
    {parts left : Vector α n} {index : Option Nat} {v : Value} (make : Vector α n → Value)
    (read : α → Value) (kind : (make left).kind = (make parts).kind)
    (elements : ∀ (parts : Vector α n) (i : Nat), (make parts).element? i = parts[i]?.map read)
    (written : writePart convert parts index v = .done left) :
    ∃ i x, index = some i ∧ v.asFloat? = some x ∧
      ReplacedAt i (read (convert x)) (make parts) (make left) := by
  obtain ⟨i, inside, x, found, number, rfl⟩ := writePart_eq_done_iff.mp written
  refine ⟨i, x, found, number, kind, ?_, ?_, fun j apart => ?_⟩
  · simp [elements, inside]
  · simp [elements, inside]
  · simp [elements, Ne.symm apart]

/-- The same for the containers of doubles. -/
theorem replacedAt_of_writeAxis {n : Nat} {u left : Vector Float n} {key v : Value}
    (make : Vector Float n → Value) (kind : (make left).kind = (make u).kind)
    (elements : ∀ (u : Vector Float n) (i : Nat), (make u).element? i = u[i]?.map float)
    (written : writeAxis u key v = .done left) :
    ∃ i, component? axis? key = some i ∧ ReplacedAt i v.asDouble (make u) (make left) := by
  obtain ⟨i, x, found, number, replaced⟩ := replacedAt_of_writePart make float kind elements written
  rw [asDouble_of_asFloat? number]
  exact ⟨i, found, replaced⟩

theorem replacedAt_of_color {c : Color} {key v changed : Value}
    (written : (color c).withMember key v = .done changed) :
    ∃ i, (color c).address? key = some i ∧
      ReplacedAt i ((color c).taken v) (color c) changed := by
  rw [withMember_color] at written
  obtain ⟨parts, result, rfl⟩ := Write.map_eq_done_iff.mp written
  obtain ⟨i, x, found, number, replaced⟩ :=
    replacedAt_of_writePart (fun parts => color (.ofComponents parts))
      (fun x => float x.toFloat) (by rfl) (fun parts i => by simp [element?]) result
  have taken : (color c).taken v = float x.toFloat32.toFloat := by simp [taken, number]
  rw [taken]
  exact ⟨i, found, replaced⟩

theorem replacedAt_of_withMember {container key v changed : Value}
    (written : container.withMember key v = .done changed) :
    ∃ i, container.address? key = some i ∧
      ReplacedAt i (container.taken v) container changed := by
  cases container with
  | list items =>
    cases key with
    | int n =>
      simp only [withMember] at written
      split at written
      · next i found =>
        split at written
        · next inside =>
          cases written
          refine ⟨i, found, rfl, ?_, ?_, fun j apart => ?_⟩
          · simp [element?, inside]
          · simp [element?, inside, taken]
          · simp [element?, Ne.symm apart]
        · cases written
      · cases written
    | _ => cases written
  | color c => exact replacedAt_of_color written
  | vector2 u =>
    obtain ⟨_, result, rfl⟩ := Write.map_eq_done_iff.mp written
    exact replacedAt_of_writeAxis vector2 rfl (fun _ _ => rfl) result
  | vector3 u =>
    obtain ⟨_, result, rfl⟩ := Write.map_eq_done_iff.mp written
    exact replacedAt_of_writeAxis vector3 rfl (fun _ _ => rfl) result
  | vector4 u =>
    obtain ⟨_, result, rfl⟩ := Write.map_eq_done_iff.mp written
    exact replacedAt_of_writeAxis vector4 rfl (fun _ _ => rfl) result
  | quaternion u =>
    obtain ⟨_, result, rfl⟩ := Write.map_eq_done_iff.mp written
    exact replacedAt_of_writeAxis quaternion rfl (fun _ _ => rfl) result
  | _ => cases written

theorem address?_of_kind {container u : Value} (same : u.kind = container.kind) (key : Value) :
    u.address? key = container.address? key := by
  cases container <;> cases u <;> first | rfl | cases same

theorem member?_color (heap : Heap) (c : Color) (key : Value) :
    (color c).member? heap key =
      ((color c).address? key).bind fun i => (color c).element? i := by
  cases key with
  | string name =>
    change _ = ((Color.indexOf? name).map Fin.val).bind _
    rw [Option.bind_map]
    rfl
  | _ => rfl

/-- Where a key is written, the member at the key is the element it addresses. -/
theorem member?_of_withMember {container key v changed u : Value}
    (written : container.withMember key v = .done changed) (same : u.kind = container.kind)
    (heap : Heap) : u.member? heap key = (u.address? key).bind fun i => u.element? i := by
  cases container with
  | list items =>
    cases u with
    | list _ => cases key <;> first | rfl | cases written
    | _ => cases same
  | color _ =>
    cases u with
    | color c => exact member?_color heap c key
    | _ => cases same
  | vector2 _ | vector3 _ | vector4 _ | quaternion _ =>
    cases u <;> first | (cases key <;> rfl) | cases same
  | _ => cases written

end Formulae.Value
