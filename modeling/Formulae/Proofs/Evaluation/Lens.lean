import Formulae.Proofs.Evaluation.Assignment
import Formulae.Proofs.Evaluation.Element

/-!
Assignments as lenses.

Keys that are written out lead to the same slot before and after a write. What is written
is read again, as the slot holds it; one place is changed, and in it only what is along
the keys.
-/

namespace Formulae

open Eval

namespace Value

/-- The second value is the first but for the elements along the keys. -/
def SameOff : List Value → Value → Value → Prop
  | [], _, _ => True
  | k :: ks, c, c' =>
    c'.kind = c.kind ∧ ∃ i old new, c.address? k = some i ∧ c.element? i = some old ∧
      c'.element? i = some new ∧ (∀ j, j ≠ i → c'.element? j = c.element? j) ∧
      SameOff ks old new

def objectIndex? : Value → Option Nat
  | object ref => some ref.index
  | _ => none

/-- The objects that the keys are applied to, from the outside in. -/
def objectsAlong (heap : Heap) : Value → List Value → List Nat
  | _, [] => []
  | c, k :: ks =>
    c.objectIndex?.toList ++
      ((c.present? heap k).map fun inner => objectsAlong heap inner ks).getD []

/-- The field of an object that a key stands for. -/
def field? : Value → Value → Option (Nat × String)
  | object ref, string name => some (ref.index, name)
  | _, _ => none

/-- The last field of an object that the keys lead through, and the keys behind it. -/
def lastField? (heap : Heap) : Value → List Value → Option (Nat × String × List Value)
  | _, [] => none
  | c, k :: ks =>
    ((c.present? heap k).bind fun inner => lastField? heap inner ks).or
      ((c.field? k).map fun (ref, name) => (ref, name, ks))

/-- The value as the container of the last key holds it. -/
def takenAt (heap : Heap) : Value → List Value → Value → Value
  | _, [], v => v
  | c, [_], v => c.taken v
  | c, k :: ks, v => ((c.present? heap k).map fun inner => takenAt heap inner ks v).getD v

theorem takenAt_cons {heap : Heap} {c k inner v : Value} {ks : List Value} (more : ks ≠ [])
    (found : c.present? heap k = some inner) :
    c.takenAt heap (k :: ks) v = inner.takenAt heap ks v := by
  cases ks with
  | nil => exact absurd rfl more
  | cons => rw [takenAt, found, Option.map_some, Option.getD_some]; nofun

theorem lastField?_of_not_object {heap : Heap} {c k : Value} {ks : List Value}
    (value : c.objectIndex? = none) :
    c.lastField? heap (k :: ks) =
      (c.present? heap k).bind fun inner => inner.lastField? heap ks := by
  have none : c.field? k = none := by cases c <;> first | rfl | cases value
  rw [lastField?, none, Option.map_none, Option.or_none]

theorem present?_eq_some_iff {heap : Heap} {c k v : Value} :
    c.present? heap k = some v ↔ c.member? heap k = some v ∧ v.isEmpty = false := by
  unfold present? lookup
  cases c.member? heap k with
  | none => simp [isEmpty]
  | some found =>
    rw [Option.getD_some]
    by_cases absent : found.isEmpty
    · rw [if_pos absent]
      constructor
      · intro none
        cases none
      · rintro ⟨⟨⟩, present⟩
        rw [absent] at present
        cases present
    · rw [if_neg absent]
      constructor
      · rintro ⟨⟩
        exact ⟨rfl, by simpa using absent⟩
      · rintro ⟨⟨⟩, _⟩
        rfl

/-- Only members of objects depend on the heap. -/
theorem member?_of_not_object {c : Value} (value : c.objectIndex? = none) (heap heap' : Heap)
    (k : Value) : c.member? heap' k = c.member? heap k := by
  cases c <;> first | (cases k <;> rfl) | cases value

theorem isEmpty_taken {c v : Value} (present : v.isEmpty = false) :
    (c.taken v).isEmpty = false := by
  cases number : v.asFloat? with
  | none => rwa [taken_of_asFloat?_eq_none number]
  | some x =>
    unfold taken
    split
    · rw [number]
      rfl
    all_goals first | (rw [asDouble_of_asFloat? number]; rfl) | exact present

/-- What replacing a member of a value that is no object comes to. -/
theorem replace?_eq_some {heap after : Heap} {c k v changed : Value}
    (replaced : c.replace? heap k v = some (some changed, after)) :
    after = heap ∧ c.objectIndex? = none ∧ c.withMember k v = .done changed := by
  refine ⟨heap_of_replace? replaced, ?_⟩
  unfold replace? at replaced
  split at replaced
  · next written =>
    split at replaced
    · simp at replaced
    · next value =>
      simp only [Option.some.injEq, Prod.mk.injEq] at replaced
      obtain ⟨rfl, rfl⟩ := replaced
      obtain ⟨_, _, _, _, rfl, _⟩ | ⟨noReference, result, _⟩ := setMember_eq_done_iff.mp written
      · exact absurd rfl value
      · have noObject : c.objectIndex? = none := by
          cases c <;> first | rfl | cases noReference
        exact ⟨noObject, result⟩
  · cases replaced

/-- What replacing a field of an object comes to. -/
theorem replace?_eq_none {heap after : Heap} {c k v : Value}
    (replaced : c.replace? heap k v = some (none, after)) :
    ∃ ref name, c = object ref ∧ k = string name ∧ heap.write ref name v = .ok after := by
  unfold replace? at replaced
  split at replaced
  · next written =>
    split at replaced
    · next reference =>
      simp only [Option.some.injEq, Prod.mk.injEq, true_and] at replaced
      subst replaced
      obtain ⟨ref, name, rfl, rfl, _, writes⟩ := write_of_setMember written reference
      exact ⟨ref, name, rfl, rfl, writes⟩
    · simp at replaced
  · cases replaced

/-- One level of a write into values: the member is there before and after. -/
theorem present?_of_withMember (heap : Heap) {c k v changed : Value}
    (present : v.isEmpty = false) (written : c.withMember k v = .done changed) :
    ∃ i old, c.address? k = some i ∧ c.element? i = some old ∧
      (∀ inner, c.present? heap k = some inner → inner = old) ∧
      ReplacedAt i (c.taken v) c changed ∧ ∀ h, changed.present? h k = some (c.taken v) := by
  obtain ⟨i, address, replaced⟩ := replacedAt_of_withMember written
  obtain ⟨old, found⟩ := Option.isSome_iff_exists.mp replaced.bound
  refine ⟨i, old, address, found, fun inner here => ?_, replaced, fun h => ?_⟩
  · obtain ⟨here, _⟩ := present?_eq_some_iff.mp here
    rw [member?_of_withMember written rfl, address, Option.bind_some, found] at here
    exact (Option.some.inj here).symm
  · refine present?_eq_some_iff.mpr ⟨?_, isEmpty_taken present⟩
    rw [member?_of_withMember written replaced.kind, address?_of_kind replaced.kind, address,
      Option.bind_some, replaced.now]

/-- A write to another object leaves a member as it is. -/
theorem present?_of_write {heap after : Heap} {ref : ObjectRef} {name : String}
    {c k v inner : Value} (written : heap.write ref name v = .ok after)
    (apart : ∀ index, c.objectIndex? = some index → index ≠ ref.index)
    (here : c.present? heap k = some inner) : c.present? after k = some inner := by
  obtain ⟨found, present⟩ := present?_eq_some_iff.mp here
  refine present?_eq_some_iff.mpr ⟨?_, present⟩
  cases value : c.objectIndex? with
  | none => rwa [member?_of_not_object value heap after]
  | some index =>
    cases c with
    | object other =>
      cases k with
      | string field =>
        have same := Heap.field?_write written other field
        rw [if_neg fun both => apart _ rfl both.1] at same
        exact same.trans found
      | int i => cases at? : index? i <;> simp [member?, at?, element?] at found
      | _ => cases found
    | _ => cases value

/-- A field that has been written is there. -/
theorem present?_of_written {heap after : Heap} {ref : ObjectRef} {name : String} {v : Value}
    (present : v.isEmpty = false) (written : heap.write ref name v = .ok after) :
    (object ref).present? after (string name) = some v := by
  have now := Heap.field?_write written ref name
  rw [if_pos ⟨rfl, rfl⟩] at now
  exact present?_eq_some_iff.mpr ⟨now, present⟩

/-- A write at more than one key is one to the member at the first, and what that has changed
replaces the member. -/
theorem exists_of_putAt?_cons {heap after : Heap} {c k v : Value} {ks : List Value}
    {result : Option Value} (more : ks ≠ [])
    (written : c.putAt? heap (k :: ks) v = some (result, after)) :
    ∃ inner, c.present? heap k = some inner ∧
      ((result = none ∧ inner.putAt? heap ks v = some (none, after)) ∨
        ∃ changed heap', inner.putAt? heap ks v = some (some changed, heap') ∧
          c.replace? heap' k changed = some (result, after)) := by
  rw [putAt?_cons more, Option.bind_eq_some_iff] at written
  obtain ⟨inner, here, written⟩ := written
  rw [Option.bind_eq_some_iff] at written
  obtain ⟨⟨_ | changed, heap'⟩, writtenInner, replaced⟩ := written
  · cases replaced
    exact ⟨inner, here, .inl ⟨rfl, writtenInner⟩⟩
  · exact ⟨inner, here, .inr ⟨changed, heap', writtenInner, replaced⟩⟩

/-- A write that changes values only: no key leads through an object, and what is written is
read again. -/
theorem of_putAt?_eq_some {heap after : Heap} {c v changed : Value} {ks : List Value}
    (present : v.isEmpty = false) (written : c.putAt? heap ks v = some (some changed, after)) :
    after = heap ∧ c.lastField? heap ks = none ∧ SameOff ks c changed ∧
      (∀ h, changed.readAt? h ks = some (c.takenAt heap ks v)) ∧
      (ks ≠ [] → changed.asFloat? = none ∧ changed.isEmpty = false) := by
  induction ks generalizing c changed after with
  | nil =>
    cases written
    exact ⟨rfl, rfl, trivial, fun _ => rfl, fun more => absurd rfl more⟩
  | cons k ks inductionHypothesis =>
    obtain rfl | more := eq_or_ne ks []
    · obtain ⟨rfl, value, written⟩ := replace?_eq_some written
      obtain ⟨i, old, address, found, _, replaced, now⟩ :=
        present?_of_withMember after present written
      refine ⟨rfl, ?_, ⟨replaced.kind, i, old, _, address, found, replaced.now,
        replaced.elsewhere, trivial⟩, fun h => ?_, fun _ => ⟨asFloat?_of_element? replaced.now,
        isEmpty_of_element? replaced.now⟩⟩
      · rw [lastField?_of_not_object value]
        cases c.present? after k <;> rfl
      · rw [readAt?, now, Option.bind_some, readAt?, takenAt]
    · obtain ⟨inner, here, ⟨stopped, _⟩ | ⟨changed', heap', writtenInner, replaces⟩⟩ :=
        exists_of_putAt?_cons more written
      · cases stopped
      · obtain ⟨rfl, noField, same, reads, aggregate⟩ := inductionHypothesis writtenInner
        obtain ⟨noNumber, present'⟩ := aggregate more
        obtain ⟨rfl, value, written⟩ := replace?_eq_some replaces
        obtain ⟨i, old, address, found, only, replaced, now⟩ :=
          present?_of_withMember after present' written
        obtain rfl := only inner here
        rw [taken_of_asFloat?_eq_none noNumber] at replaced now
        refine ⟨rfl, ?_, ⟨replaced.kind, i, inner, changed', address, found, replaced.now,
          replaced.elsewhere, same⟩, fun h => ?_, fun _ => ⟨asFloat?_of_element? replaced.now,
          isEmpty_of_element? replaced.now⟩⟩
        · rw [lastField?_of_not_object value, here, Option.bind_some, noField]
        · rw [readAt?, now, Option.bind_some, reads, takenAt_cons more here]

/-- A write to an object: it is the last one that the keys lead through, and what is written
is read again if no object is passed twice. -/
theorem of_putAt?_eq_none {heap after : Heap} {c v : Value} {ks : List Value}
    (present : v.isEmpty = false) (written : c.putAt? heap ks v = some (none, after)) :
    ∃ ref field rest old new, c.lastField? heap ks = some (ref.index, field, rest) ∧
      heap.field? ref field = some old ∧ heap.write ref field new = .ok after ∧
      SameOff rest old new ∧ ref.index ∈ c.objectsAlong heap ks ∧
      ((c.objectsAlong heap ks).Nodup → c.readAt? after ks = some (c.takenAt heap ks v)) := by
  induction ks generalizing c after with
  | nil => cases written
  | cons k ks inductionHypothesis =>
    obtain rfl | more := eq_or_ne ks []
    · obtain ⟨ref, name, rfl, rfl, writes⟩ := replace?_eq_none written
      obtain ⟨old, found⟩ := Option.isSome_iff_exists.mp (Heap.bound_of_write writes).1
      refine ⟨ref, name, [], old, v, ?_, found, writes, trivial, ?_, fun _ => ?_⟩
      · rw [lastField?]
        cases (object ref).present? heap (string name) <;> rfl
      · simp [objectsAlong, objectIndex?]
      · rw [readAt?, present?_of_written present writes]
        rfl
    · obtain ⟨inner, here, ⟨-, writtenInner⟩ | ⟨changed, heap', writtenInner, replaces⟩⟩ :=
        exists_of_putAt?_cons more written
      · obtain ⟨ref, field, rest, old, new, last, found, writes, same, member, reads⟩ :=
          inductionHypothesis writtenInner
        have along : c.objectsAlong heap (k :: ks) =
            c.objectIndex?.toList ++ inner.objectsAlong heap ks := by
          rw [objectsAlong, here, Option.map_some, Option.getD_some]
        refine ⟨ref, field, rest, old, new, ?_, found, writes, same, ?_, fun distinct => ?_⟩
        · rw [lastField?, here, Option.bind_some, last, Option.some_or]
        · rw [along]
          exact List.mem_append_right _ member
        · rw [along] at distinct
          -- An object at this level is not the one written further in, so the way in is kept.
          have still : c.present? after k = some inner := by
            have apart := (List.nodup_append.mp distinct).2.2
            exact present?_of_write writes
              (fun index this => apart index (by simp [this]) _ member) here
          rw [readAt?, still, Option.bind_some, takenAt_cons more here]
          exact reads (List.nodup_append.mp distinct).2.1
      · -- This level is the object: all that is further in was copied and goes into its field.
        obtain ⟨rfl, noField, same, reads, aggregate⟩ := of_putAt?_eq_some present writtenInner
        obtain ⟨ref, name, rfl, rfl, writes⟩ := replace?_eq_none replaces
        obtain ⟨found, _⟩ := present?_eq_some_iff.mp here
        refine ⟨ref, name, ks, inner, changed, ?_, found, writes, same, ?_, fun _ => ?_⟩
        · rw [lastField?, here, Option.bind_some, noField]
          rfl
        · simp [objectsAlong, objectIndex?]
        · have now := present?_of_written (aggregate more).2 writes
          rw [readAt?, now, Option.bind_some, reads, takenAt_cons more here]

end Value

namespace World

/-- The place that a write to a slot changes, and the keys that lead on from it. -/
def root (w : World) (name : String) (ks : List Value) : Place × List Value :=
  match (w.scope.get name).lastField? w.heap ks with
  | some (object, field, rest) => (.field object field, rest)
  | none => (w.scope.place name, ks)

/-- The value as a slot holds it. -/
def taken (w : World) (name : String) (ks : List Value) (v : Value) : Value :=
  if ks.isEmpty then w.scope.taken name v else (w.scope.get name).takenAt w.heap ks v

end World

theorem Scope.taken_of_asFloat?_eq_none {s : Scope} {name : String} {v : Value}
    (other : v.asFloat? = none) : s.taken name v = v := by
  induction s with
  | store vars =>
    rw [taken]
    cases vars[name]? with
    | none => rfl
    | some x =>
      simp only [Option.map_some, Option.getD_some, Variable.taken,
        Value.asDouble_of_asFloat?_eq_none other, ite_self]
  | overlay bindings below inductionHypothesis =>
    rw [taken, inductionHypothesis, ite_self]
  | readOnly below inductionHypothesis => exact inductionHypothesis

namespace World

/-- What is put into a slot is in it, and nothing is changed off the keys. -/
theorem slot?_putSlot? {w w' : World} {name : String} {ks : List Value} {v : Value}
    (present : v.isEmpty = false)
    (distinct : ((w.scope.get name).objectsAlong w.heap ks).Nodup)
    (written : w.putSlot? name ks v = some w') :
    w'.slot? name ks = some (w.taken name ks v) ∧
      ∃ old new, w.at? (w.root name ks).1 = some old ∧ w.WroteAt (w.root name ks).1 new w' ∧
        Value.SameOff (w.root name ks).2 old new := by
  unfold putSlot? at written
  split at written
  · next heap put =>
    cases written
    obtain ⟨ref, field, rest, old, new, last, found, writes, same, _, reads⟩ :=
      Value.of_putAt?_eq_none present put
    have root : w.root name ks = (.field ref.index field, rest) := by rw [World.root, last]
    have keys : ks.isEmpty = false := by
      cases ks with
      | nil => cases put
      | cons => rfl
    refine ⟨?_, old, new, ?_, ?_, ?_⟩
    · rw [slot?, taken, keys]
      exact reads distinct
    · rw [root]
      exact found
    · rw [root]
      exact wroteAt_write writes
    · rwa [root]
  · next changed heap put =>
    split at written
    · next scope stores =>
      cases written
      obtain ⟨rfl, noField, same, reads, aggregate⟩ := Value.of_putAt?_eq_some present put
      have root : w.root name ks = (w.scope.place name, ks) := by rw [World.root, noField]
      have wrote := wroteAt_set stores
      obtain ⟨old, found⟩ := Option.isSome_iff_exists.mp wrote.bound
      have held : w.scope.get name = old := by
        rw [at?_of_not_field w (w.scope.place_ne_field name)] at found
        exact Scope.get_of_place found
      rw [root]
      cases ks with
      | nil =>
        cases put
        exact ⟨congrArg some (Scope.get_set stores), old, _, found, wrote, trivial⟩
      | cons k ks =>
        have aggregate : w.scope.taken name changed = changed :=
          Scope.taken_of_asFloat?_eq_none (aggregate (by simp)).1
        rw [aggregate] at wrote
        refine ⟨?_, old, changed, found, wrote, by rwa [← held]⟩
        change (scope.get name).readAt? _ _ = _
        rw [Scope.get_set stores, aggregate]
        exact reads _
    · cases written
  · cases written

end World

/-- Selectors whose key is written out: names, literals and constants. -/
inductive Selector.Fixed : Selector → Value → Prop
  | named (s : String) : Fixed (.named s) (.string s)
  | literal (mark : Mark) (text : String) (v : Value) : Fixed (.keyed (.literal mark text v)) v
  | constant (mark : Mark) (name : String) (v : Value) : Fixed (.keyed (.constant mark name v)) v

namespace Tree

variable {host : Host} {name : String} {sels : List Selector} {ks : List Value}

theorem selectorKey_of_fixed {selector : Selector} {k : Value} (fixed : selector.Fixed k)
    (w : World) : selectorKey host selector w = .ok k w := by
  cases fixed <;> rfl

theorem settled_of_fixed (fixed : List.Forall₂ Selector.Fixed sels ks) (w : World) :
    Settled host w sels ks :=
  fixed.imp fun _ _ fixed u same => ⟨u, selectorKey_of_fixed fixed u, same⟩

/-- Through settled keys, what is in a slot is read by its target. -/
theorem exists_eval_of_settled {target : Tree} (path : target.Path name sels) {w u : World}
    {v : Value} (settled : Settled host w sels ks) (same : w.SameState u)
    (found : w.slot? name ks = some v) :
    ∃ u', target.eval host u = .ok v u' ∧ w.SameState u' := by
  induction path generalizing ks v with
  | name =>
    cases settled
    rw [World.slot?, ← same.1] at found
    cases found
    exact ⟨u, rfl, same⟩
  | member container inductionHypothesis =>
    obtain ⟨front, k, rfl, settledFront, settledKey⟩ := settled.unsnoc
    rw [World.slot?, Value.readAt?_append, Option.bind_eq_some_iff] at found
    obtain ⟨c, foundContainer, present⟩ := found
    obtain ⟨u₁, reads, same₁⟩ := inductionHypothesis settledFront foundContainer
    obtain ⟨u₂, key, same₂⟩ := settledKey u₁ same₁
    rw [← same₂.2] at present
    exact ⟨u₂, eval_member_eq_ok_iff.mpr ⟨c, u₁, k, reads, key, present⟩, same₂⟩

/-- The lens laws. A value that is written through a target whose keys are written out, and
that passes no object twice, is read again as the slot holds it. One place has changed, and
in it nothing but what is along the keys. -/
theorem write_lens_laws {target : Tree} (path : target.Path name sels)
    (fixed : List.Forall₂ Selector.Fixed sels ks) {w w' : World} {v : Value}
    (present : v.isEmpty = false)
    (distinct : ((w.scope.get name).objectsAlong w.heap ks).Nodup)
    (written : target.write host v w = .ok (some (.ok ())) w') :
    (∃ u, target.eval host w' = .ok (w.taken name ks v) u ∧ w'.SameState u) ∧
      ∃ old new, w.at? (w.root name ks).1 = some old ∧ w.WroteAt (w.root name ks).1 new w' ∧
        Value.SameOff (w.root name ks).2 old new := by
  obtain ⟨u, puts, same⟩ :=
    write_of_settled path (settled_of_fixed fixed w) (World.SameState.refl w) written
  obtain ⟨reads, old, new, found, wrote, sameOff⟩ := World.slot?_putSlot? present distinct puts
  have slot : w'.slot? name ks = some (w.taken name ks v) := by
    rw [World.slot?, same.1, same.2]
    exact reads
  exact ⟨exists_eval_of_settled path (settled_of_fixed fixed w') (.refl w') slot, old, new, found,
    wrote.of_sameState (.refl w) same, sameOff⟩

/-- An item of a list in a field of an object. -/
theorem write_lens_laws_of_item :
    let world : World :=
      { scope := .store (Std.TreeMap.ofList
          [("o", Variable.mk (.object ⟨0, "Record"⟩) false none)])
        heap := ⟨[{ typeName := "Record"
                    fields := Std.TreeMap.ofList [("f", Value.list [.int 1, .int 2])] }]⟩ }
    let target : Tree := .member default (.member default (.name default "o") (.named "f"))
      (.keyed (.literal default "1" (.int 1)))
    ∃ w', target.write ⟨[]⟩ (.int 5) world = .ok (some (.ok ())) w' ∧
      (∃ u, target.eval ⟨[]⟩ w' = .ok (.int 5) u ∧ w'.SameState u) ∧
      ∃ old new, world.at? (.field 0 "f") = some old ∧ world.WroteAt (.field 0 "f") new w' ∧
        Value.SameOff [.int 1] old new := by
  intro world target
  have path : target.Path "o" [.named "f", .keyed (.literal default "1" (.int 1))] :=
    .member (.member .name)
  have fixed : List.Forall₂ Selector.Fixed [.named "f", .keyed (.literal default "1" (.int 1))]
      [.string "f", .int 1] := .cons (.named "f") (.cons (.literal ..) .nil)
  have distinct : ((world.scope.get "o").objectsAlong world.heap [.string "f", .int 1]).Nodup := by
    decide
  have written : ∃ w', target.write ⟨[]⟩ (.int 5) world = .ok (some (.ok ())) w' := ⟨_, rfl⟩
  obtain ⟨w', written⟩ := written
  exact ⟨w', written, write_lens_laws path fixed rfl distinct written⟩

end Tree

end Formulae
