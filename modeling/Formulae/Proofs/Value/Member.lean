import Formulae.Proofs.Evaluation.Lens

/-!
Members of values, read and written.

A key that is written is read as well. The reverse fails for lists only, whose length and
first items have names that no write knows. A write to a value replaces the element that its
key addresses, which is then read again, and leaves nothing of an earlier write to the key.
-/

namespace Formulae.Value

variable {heap : Heap} {c key v changed : Value}

/-- The items or components of a value, in order. -/
def elements : Value → List Value
  | list items => items
  | string s => s.toList.map fun c => string (String.singleton c)
  | color c => c.components.toList.map fun x => float x.toFloat
  | vector2 u => u.toList.map float
  | vector3 u => u.toList.map float
  | vector4 u => u.toList.map float
  | quaternion u => u.toList.map float
  | _ => []

theorem getElem?_elements (c : Value) (i : Nat) : c.elements[i]? = c.element? i := by
  cases c <;> simp [elements, element?]

theorem lt_length_elements_iff (c : Value) (i : Nat) :
    i < c.elements.length ↔ (c.element? i).isSome = true := by
  rw [← getElem?_elements]
  simp

/-- The containers that hold no absent value: those of numbers, and lists and objects none of
whose items or fields is absent. The objects refuse no field that they do not have, and none
as missing. -/
inductive Filled (heap : Heap) : Value → Prop
  | color (c : Color) : Filled heap (color c)
  | vector2 (u : Vector Float 2) : Filled heap (vector2 u)
  | vector3 (u : Vector Float 3) : Filled heap (vector3 u)
  | vector4 (u : Vector Float 4) : Filled heap (vector4 u)
  | quaternion (u : Vector Float 4) : Filled heap (quaternion u)
  | list {items : List Value} (present : ∀ item ∈ items, item.isEmpty = false) :
    Filled heap (list items)
  | object {ref : ObjectRef} {o : Object} (found : heap.objects[ref.index]? = some o)
    (known : ∀ (name : String) (v : Value) (refusal : Refusal),
      o.refusal name v = some refusal → name ∈ o.fields ∧ refusal ≠ .notFound)
    (present : ∀ (name : String) (v : Value), o.fields[name]? = some v → v.isEmpty = false) :
    Filled heap (object ref)

/-- The names that lists are read by: that of the length, and the axis names of their first
items. -/
inductive ListName : Value → Value → Prop
  | length (items : List Value) : ListName (list items) (string "length")
  | axis {items : List Value} {name : String} {i : Nat} (named : axis? name = some i)
    (inside : i < items.length) : ListName (list items) (string name)

theorem member?_list (heap : Heap) (items : List Value) (name : String) :
    (list items).member? heap (string name) =
      if name = "length" then some (int (.ofNat items.length))
      else (axis? name).bind fun i => items[i]? :=
  rfl

theorem listName_iff (heap : Heap) {items : List Value} {name : String} :
    ListName (list items) (string name) ↔
      ((list items).member? heap (string name)).isSome = true := by
  rw [member?_list]
  by_cases length : name = "length"
  · simp [length, ListName.length]
  · rw [if_neg length]
    constructor
    · intro known
      cases known with
      | length => exact absurd rfl length
      | axis named inside => simp [named, inside]
    · intro found
      cases named : axis? name with
      | none => simp [named] at found
      | some i => exact .axis named (by simpa [named] using found)

theorem ListName.exists_eq (known : ListName c key) :
    ∃ items name, c = list items ∧ key = string name := by
  cases known <;> exact ⟨_, _, rfl, rfl⟩

theorem not_listName (other : c.kind ≠ .list) : ¬ListName c key := by
  intro known
  obtain ⟨_, _, rfl, _⟩ := known.exists_eq
  exact other rfl

theorem Filled.isEmpty_of_element? (filled : Filled heap c) {i : Nat} {e : Value}
    (found : c.element? i = some e) : e.isEmpty = false := by
  cases filled with
  | list present => exact present e (List.mem_of_getElem? found)
  | object => cases found
  | _ =>
    obtain ⟨_, _, rfl⟩ := Option.map_eq_some_iff.mp found
    rfl

/-- A member is an element, the length of a list or a text, or a field of an object. -/
theorem of_member?_eq_some {found : Value} (read : c.member? heap key = some found) :
    (∃ i, c.element? i = some found) ∨ found.kind = .int ∨
      ∃ ref name, c = object ref ∧ heap.field? ref name = some found := by
  cases key with
  | int n =>
    obtain ⟨i, _, here⟩ := Option.bind_eq_some_iff.mp read
    exact .inl ⟨i, here⟩
  | string name =>
    change c.named? heap name = some found at read
    have inOrder (here : named?.inOrder name c = some found) :
        ∃ i, c.element? i = some found := by
      obtain ⟨i, _, here⟩ := Option.bind_eq_some_iff.mp here
      exact ⟨i, here⟩
    cases c with
    | object ref => exact .inr (.inr ⟨ref, name, rfl, read⟩)
    | color =>
      obtain ⟨i, _, here⟩ := Option.bind_eq_some_iff.mp read
      exact .inl ⟨i, here⟩
    | list | string =>
      unfold named? at read
      dsimp only at read
      split at read
      · cases read
        exact .inr (.inl rfl)
      · exact .inl (inOrder read)
    | _ => exact .inl (inOrder read)
  | _ => cases read

theorem Filled.isEmpty_of_member? (filled : Filled heap c) {found : Value}
    (read : c.member? heap key = some found) : found.isEmpty = false := by
  rcases of_member?_eq_some read with ⟨i, here⟩ | number | ⟨ref, name, rfl, field⟩
  · exact filled.isEmpty_of_element? here
  · cases found <;> first | rfl | cases number
  · cases filled with
    | object here _ present =>
      apply present name
      simpa [Heap.field?, here] using field

theorem Filled.isEmpty_lookup_iff (filled : Filled heap c) :
    (c.lookup heap key).isEmpty = true ↔ c.member? heap key = none := by
  unfold lookup
  cases read : c.member? heap key with
  | none => simp [isEmpty]
  | some found => simp [filled.isEmpty_of_member? read]

theorem map_eq_error_iff {α β : Type} {x : Except Refusal α} {f : α → β} {refusal : Refusal} :
    x.map f = .error refusal ↔ x = .error refusal := by
  cases x <;> simp [Except.map]

theorem result_writePart_eq_notFound_iff {α : Type} {n : Nat} {convert : Float → α}
    {parts : Vector α n} {index : Option Nat} :
    (writePart convert parts index v).result = .error .notFound ↔
      (index.bind fun i => parts[i]?) = none := by
  cases index with
  | none => simp [writePart, Write.result]
  | some i =>
    by_cases inside : i < n
    · cases number : v.asFloat? <;> simp [writePart, Write.result, inside, number]
    · simp [writePart, Write.result, inside]

/-- The parts of a container are missing to a write as they are to a read. -/
theorem missing_part_iff {α : Type} {n : Nat} {convert : Float → α} {parts : Vector α n}
    {make : Vector α n → Value} {read : α → Value}
    (writes : c.setMember heap key v =
      ((writePart convert parts (c.address? key) v).map make).map fun changed => (changed, heap))
    (reads : c.member? heap key = (c.address? key).bind fun i => c.element? i)
    (elements : ∀ i, c.element? i = parts[i]?.map read) :
    (c.setMember heap key v).result = .error .notFound ↔ c.member? heap key = none := by
  rw [writes, reads, Write.result_map, Write.result_map, map_eq_error_iff, map_eq_error_iff,
    result_writePart_eq_notFound_iff]
  cases c.address? key with
  | none => simp
  | some i => simp [elements]

theorem missing_item_iff {items : List Value} :
    ((list items).setMember heap key v).result = .error .notFound ↔
      (list items).member? heap key = none ∨ ListName (list items) key := by
  change (((list items).withMember key v).map _).result = _ ↔ _
  rw [Write.result_map, map_eq_error_iff]
  cases key with
  | int n =>
    have unnamed : ¬ListName (list items) (int n) := by nofun
    simp only [unnamed, or_false]
    change _ ↔ ((index? n).bind fun i => items[i]?) = none
    simp only [withMember, asInt?, Option.bind_some]
    cases index? n with
    | none => simp [Write.result]
    | some i =>
      by_cases inside : i < items.length <;> simp [inside, Write.result]
  | string name =>
    rw [listName_iff heap]
    refine ⟨fun _ => ?_, fun _ => rfl⟩
    cases (list items).member? heap (string name) <;> simp
  | _ => exact ⟨fun _ => .inl rfl, fun _ => rfl⟩

theorem missing_field_iff {ref : ObjectRef} {o : Object}
    (here : heap.objects[ref.index]? = some o)
    (known : ∀ (name : String) (v : Value) (refusal : Refusal),
      o.refusal name v = some refusal → name ∈ o.fields ∧ refusal ≠ .notFound) :
    ((object ref).setMember heap key v).result = .error .notFound ↔
      (object ref).member? heap key = none := by
  cases key with
  | int n =>
    refine ⟨fun _ => ?_, fun _ => rfl⟩
    cases found : index? n <;> simp [member?, found, element?]
  | string name =>
    have result : ((object ref).setMember heap (string name) v).result = .error .notFound ↔
        heap.write ref name v = .error .notFound := by
      simp only [setMember]
      cases heap.write ref name v <;> simp [Write.result]
    rw [result]
    change _ ↔ heap.field? ref name = none
    rw [Heap.write, here]
    apply map_eq_error_iff.trans
    unfold Object.write
    cases refuses : o.refusal name v with
    | none => by_cases there : name ∈ o.fields <;> simp [there, Heap.field?, here]
    | some refusal =>
      obtain ⟨there, other⟩ := known name v refusal refuses
      simp [other, there, Heap.field?, here]
  | _ => exact ⟨fun _ => rfl, fun _ => rfl⟩

/-- Reading and writing address the same members, but for the names that lists are only read
by: what is read by such a name is reported as missing when it is written. -/
theorem missing_to_writes (filled : Filled heap c) (key v : Value) :
    ((c.setMember heap key v).result = .error .notFound ↔
      (c.lookup heap key).isEmpty = true ∨ ListName c key) ∧
    (ListName c key → (c.lookup heap key).isEmpty = false) := by
  rw [← Bool.not_eq_true, filled.isEmpty_lookup_iff]
  constructor
  · cases filled with
    | list => exact missing_item_iff
    | object here known =>
      apply Iff.trans _ (or_iff_left (not_listName (by simp [kind]))).symm
      exact missing_field_iff here known
    | color c =>
      apply Iff.trans _ (or_iff_left (not_listName (by simp [kind]))).symm
      have writes := congrArg (Write.map fun changed => (changed, heap)) (withMember_color c key v)
      exact missing_part_iff writes (member?_color heap c key) fun _ => rfl
    | _ =>
      apply Iff.trans _ (or_iff_left (not_listName (by simp [kind]))).symm
      exact missing_part_iff rfl (by cases key <;> rfl) fun _ => rfl
  · intro known
    obtain ⟨items, name, rfl, rfl⟩ := known.exists_eq
    apply Option.isSome_iff_ne_none.mp
    exact (listName_iff heap).mp known

/-- The first item of a list is read by the name of an axis and missing to a write. -/
theorem missing_to_writes_of_axis :
    ((list [int 1]).setMember {} (string "x") (int 5)).result = .error .notFound ∧
      ((list [int 1]).lookup {} (string "x")).isEmpty = false := by
  have filled : Filled {} (list [int 1]) := .list (by simp [isEmpty])
  have known : ListName (list [int 1]) (string "x") := .axis rfl (by decide)
  have laws := missing_to_writes filled (string "x") (int 5)
  exact ⟨laws.1.mpr (.inr known), laws.2 known⟩

/-- What the write of a member leaves of a value. -/
structure Rewritten (heap : Heap) (c key v changed : Value) : Prop where
  kind : changed.kind = c.kind
  size : changed.elements.length = c.elements.length
  /-- The value is read again: by a list as it is, by the containers of numbers as a double,
  and by a color as one that has been rounded to single precision. -/
  reread : (c.kind = .list → changed.lookup heap key = v) ∧
    (c.kind ≠ .list → ∃ x, v.asFloat? = some x ∧
      changed.lookup heap key = float (if c.kind = .color then x.toFloat32.toFloat else x))
  others : ∃ i, c.address? key = some i ∧ i < c.elements.length ∧
    ∀ j, j ≠ i → changed.elements[j]? = c.elements[j]?
  /-- Another write to the key comes to what it would have come to without this one. -/
  again : ∀ u, (changed.setMember heap key u).result = (c.setMember heap key u).result

theorem ReplacedAt.length_elements {i : Nat} {new : Value}
    (replaced : ReplacedAt i new c changed) : changed.elements.length = c.elements.length := by
  have same (j : Nat) : j < changed.elements.length ↔ j < c.elements.length := by
    rw [lt_length_elements_iff, lt_length_elements_iff]
    by_cases here : j = i
    · simp [here, replaced.now, replaced.bound]
    · rw [replaced.elsewhere j here]
  have := same changed.elements.length
  have := same c.elements.length
  omega

theorem writePart_again {α : Type} {n : Nat} {convert : Float → α} {parts left : Vector α n}
    {index : Option Nat} (written : writePart convert parts index v = .done left) (u : Value) :
    (writePart convert left index u).result = (writePart convert parts index u).result := by
  obtain ⟨i, inside, x, rfl, _, rfl⟩ := writePart_eq_done_iff.mp written
  cases number : u.asFloat? <;> simp [writePart, inside, number, Write.result]

theorem withMember_again (written : c.withMember key v = .done changed) (u : Value) :
    (changed.withMember key u).result = (c.withMember key u).result := by
  cases c with
  | list items =>
    unfold withMember at written
    dsimp only at written
    split at written
    · next found =>
      split at written
      · next inside =>
        cases written
        simp [withMember, found, inside, Write.result]
      · cases written
    · cases written
  | color c =>
    rw [withMember_color] at written
    obtain ⟨parts, result, rfl⟩ := Write.map_eq_done_iff.mp written
    have address : (color (.ofComponents parts)).address? key = (color c).address? key := rfl
    have again := writePart_again result u
    simp only [withMember_color, Write.result_map, Color.components_ofComponents, address, again]
  | vector2 | vector3 | vector4 | quaternion =>
    obtain ⟨_, result, rfl⟩ := Write.map_eq_done_iff.mp written
    have again := writePart_again result u
    simp only [withMember, writeAxis, Write.result_map, again]
  | _ => cases written

theorem number_of_withMember (written : c.withMember key v = .done changed)
    (other : c.kind ≠ .list) :
    ∃ x, v.asFloat? = some x ∧
      c.taken v = float (if c.kind = .color then x.toFloat32.toFloat else x) := by
  cases c with
  | list => exact absurd rfl other
  | color =>
    rw [withMember_color] at written
    obtain ⟨_, result, rfl⟩ := Write.map_eq_done_iff.mp written
    obtain ⟨_, _, x, _, number, _⟩ := writePart_eq_done_iff.mp result
    exact ⟨x, number, by simp [taken, number, kind]⟩
  | vector2 | vector3 | vector4 | quaternion =>
    obtain ⟨_, result, rfl⟩ := Write.map_eq_done_iff.mp written
    obtain ⟨_, _, x, _, number, _⟩ := writePart_eq_done_iff.mp result
    exact ⟨x, number, asDouble_of_asFloat? number⟩
  | _ => cases written

theorem rewritten_of_withMember (value : c.isReference = false) (heap : Heap)
    (written : c.withMember key v = .done changed) : Rewritten heap c key v changed := by
  obtain ⟨i, address, replaced⟩ := replacedAt_of_withMember written
  have now : changed.lookup heap key = c.taken v := by
    rw [lookup, member?_of_withMember written replaced.kind, address?_of_kind replaced.kind,
      address, Option.bind_some, replaced.now, Option.getD_some]
  have inside : i < c.elements.length := (lt_length_elements_iff c i).mpr replaced.bound
  refine ⟨replaced.kind, replaced.length_elements, ⟨fun isList => ?_, fun other => ?_⟩,
    ⟨i, address, inside, fun j apart => ?_⟩, fun u => ?_⟩
  · rw [now]
    cases c <;> first | rfl | cases isList
  · rw [now]
    exact number_of_withMember written other
  · rw [getElem?_elements, getElem?_elements]
    exact replaced.elsewhere j apart
  · have value' := (isReference_of_withMember written).trans value
    rw [setMember_of_value value', setMember_of_value value, Write.result_map, Write.result_map,
      withMember_again written]

/-- A write to a member of a value that is refused leaves the value as it is. Otherwise the
addressed element alone is replaced. The objects are left as they are in any case. -/
theorem member_write_laws (value : c.isReference = false) (heap : Heap) (key v : Value) :
    let write := c.setMember heap key v
    (∀ refusal, write.result = .error refusal → write.left = (c, heap)) ∧
      ∀ changed after, write.result = .ok (changed, after) →
        write.left = (changed, after) ∧ after = heap ∧ Rewritten heap c key v changed := by
  refine ⟨fun refusal refused => (atomic_setMember heap c key v).left_eq refused, ?_⟩
  intro changed after succeeds
  have written := Write.result_eq_ok_iff.mp succeeds
  have left := congrArg Write.left written
  rw [setMember_of_value value, Write.map_eq_done_iff] at written
  obtain ⟨_, result, ⟨⟩⟩ := written
  exact ⟨left, rfl, rewritten_of_withMember value _ result⟩

/-- A channel of a color, written with a whole number by its name, and refused a text by its
index. -/
theorem member_write_laws_of_channel :
    Rewritten {} (color .black) (string "g") (int 1)
        (color (Color.black.set 1 (widen 1).toFloat32)) ∧
      ((color .black).setMember {} (int 1) (string "g")).left = (color .black, {}) := by
  have named := member_write_laws (c := color .black) rfl {} (string "g") (int 1)
  have indexed := member_write_laws (c := color .black) rfl {} (int 1) (string "g")
  exact ⟨(named.2 _ _ rfl).2.2, indexed.1 .typeMismatch rfl⟩

end Formulae.Value
