import Formulae.Proofs.Evaluation.ReadOnly
import Formulae.Proofs.Evaluation.Slot

/-!
Places: all that a write can change.

A place is a variable, a binding of a layer or a field of an object. What a scope or an
object accepts is written to one place.
-/

namespace Formulae

/-- What holds a value. -/
inductive Place where
  /-- A variable under all layers. -/
  | store (name : String)
  /-- A binding of a layer; layers are counted from the top one. -/
  | overlay (layer : Nat) (name : String)
  | field (object : Nat) (name : String)
  deriving DecidableEq, Repr

/-- The place as it is counted with one more layer on top. -/
def Place.lower : Place → Place
  | overlay layer name => overlay (layer + 1) name
  | place => place

/-- An integer as a double; all other values as they are. -/
def Value.asDouble : Value → Value
  | int i => float (widen i)
  | v => v

theorem Value.eq_asDouble_of_convert? {v w : Value} (converts : v.convert? .float = some w) :
    w = v.asDouble := by
  cases v <;> simp_all [convert?, asDouble, kind]

theorem Value.eq_of_convert? {k : Kind} {v w : Value} (other : k ≠ .float)
    (converts : v.convert? k = some w) : w = v := by
  unfold convert? at converts
  split at converts
  · split at converts <;> simp_all
  · split at converts <;> simp_all

/-- The value as a variable holds it. -/
def Variable.taken (x : Variable) (v : Value) : Value :=
  if x.kind = some .float then v.asDouble else v

/-- Whether a variable takes writes, and of which kind. -/
def Variable.declaration (x : Variable) : Bool × Option Kind := (x.readOnly, x.kind)

theorem Variable.declaration_of_write {x y : Variable} {v : Value} (written : x.write v = .ok y) :
    y.declaration = x.declaration := by
  unfold write at written
  split at written
  · cases written
  · split at written
    · cases written
      rfl
    · split at written <;> cases written
      rfl

theorem Variable.value_of_write {x y : Variable} {v : Value} (written : x.write v = .ok y) :
    y.value = x.taken v := by
  unfold write at written
  unfold taken
  split at written
  · cases written
  · split at written
    · next free =>
      cases written
      simp [free]
    · next kind typed =>
      split at written
      · next converted converts =>
        cases written
        by_cases float : kind = .float
        · rw [float] at typed converts
          rw [if_pos typed]
          exact Value.eq_asDouble_of_convert? converts
        · rw [if_neg (by simpa [typed] using float)]
          exact Value.eq_of_convert? float converts
      · cases written

/-- An object without its fields. -/
def Object.header (o : Object) : String × (String → Value → Option Refusal) :=
  (o.typeName, o.refusal)

theorem Object.bound_of_write {o o' : Object} {name : String} {v : Value}
    (written : o.write name v = .ok o') :
    (o.fields[name]?).isSome = true ∧ o'.header = o.header := by
  unfold write at written
  split at written
  · cases written
  · split at written
    · next bound =>
      cases written
      exact ⟨by rwa [← Std.TreeMap.contains_eq_isSome_getElem?], rfl⟩
    · cases written

/-- A field that is written was there, and the objects are otherwise as they were. -/
theorem Heap.bound_of_write {heap after : Heap} {ref : ObjectRef} {name : String} {v : Value}
    (written : heap.write ref name v = .ok after) :
    (heap.field? ref name).isSome = true ∧
      after.objects.map Object.header = heap.objects.map Object.header := by
  unfold write at written
  split at written
  · cases written
  · next o found =>
    obtain ⟨o', writes, rfl⟩ := Value.map_eq_ok_iff.mp written
    obtain ⟨bound, header⟩ := Object.bound_of_write writes
    refine ⟨by simpa [field?, found] using bound, List.ext_getElem? fun i => ?_⟩
    by_cases same : ref.index = i
    · subst same
      obtain ⟨inside, rfl⟩ := List.getElem?_eq_some_iff.1 found
      simp [inside, header]
    · simp [same]

namespace Scope

def at? : Scope → Place → Option Value
  | store vars, .store name => vars[name]?.map Variable.value
  | overlay bindings _, .overlay 0 name => bindings[name]?
  | overlay _ below, .overlay (layer + 1) name => below.at? (.overlay layer name)
  | overlay _ below, .store name => below.at? (.store name)
  | readOnly below, .overlay (layer + 1) name => below.at? (.overlay layer name)
  | readOnly below, .store name => below.at? (.store name)
  | _, _ => none

/-- The place that a name stands for. -/
def place (name : String) : Scope → Place
  | store _ => .store name
  | overlay bindings below =>
    if bindings.contains name then .overlay 0 name else (below.place name).lower
  | readOnly below => (below.place name).lower

/-- The value as a name holds it. -/
def taken (name : String) (v : Value) : Scope → Value
  | store vars => (vars[name]?.map fun x => x.taken v).getD v
  | overlay bindings below => if bindings.contains name then v else below.taken name v
  | readOnly below => below.taken name v

@[simp] theorem at?_overlay_lower (bindings : Std.TreeMap String Value) (below : Scope)
    (place : Place) : (overlay bindings below).at? place.lower = below.at? place := by
  cases place with
  | store | overlay => rfl
  | field =>
    cases below <;> rfl

/-- Two scopes with the same layers over variables that are declared in the same way. -/
def SameFrame : Scope → Scope → Prop
  | store vars, store vars' =>
    ∀ name : String, vars'[name]?.map Variable.declaration = vars[name]?.map Variable.declaration
  | overlay _ below, overlay _ below' => SameFrame below below'
  | readOnly below, readOnly below' => SameFrame below below'
  | _, _ => False

theorem SameFrame.refl (s : Scope) : s.SameFrame s := by
  induction s with
  | store => exact fun _ => rfl
  | overlay _ _ inductionHypothesis | readOnly _ inductionHypothesis => exact inductionHypothesis

theorem sameFrame_set {s t : Scope} {name : String} {v : Value} (written : s.set name v = .ok t) :
    s.SameFrame t := by
  induction s generalizing t with
  | store vars =>
    obtain ⟨after, stores, rfl⟩ := Value.map_eq_ok_iff.mp written
    intro other
    rw [Variables.getElem?_set stores]
    split
    · next same =>
      unfold Variables.set at stores
      split at stores
      · cases stores
      · next x found =>
        obtain ⟨y, writes, _⟩ := Value.map_eq_ok_iff.mp stores
        simp [same, found, writes, Except.toOption, Variable.declaration_of_write writes]
    · rfl
  | overlay bindings below inductionHypothesis =>
    unfold set at written
    split at written
    · cases written
      exact SameFrame.refl below
    · obtain ⟨after, stores, rfl⟩ := Value.map_eq_ok_iff.mp written
      exact inductionHypothesis stores
  | readOnly below => cases written

/-- A name is written to its place and to no other. -/
theorem at?_set {s t : Scope} {name : String} {v : Value} (written : s.set name v = .ok t) :
    (s.at? (s.place name)).isSome = true ∧ t.at? (s.place name) = some (s.taken name v) ∧
      ∀ other, other ≠ s.place name → t.at? other = s.at? other := by
  induction s generalizing t with
  | store vars =>
    obtain ⟨after, stores, rfl⟩ := Value.map_eq_ok_iff.mp written
    have reads := Variables.getElem?_set stores
    unfold Variables.set at stores
    split at stores
    · cases stores
    · next x found =>
      obtain ⟨y, writes, _⟩ := Value.map_eq_ok_iff.mp stores
      refine ⟨by simp [at?, place, found], ?_, fun other apart => ?_⟩
      · simp [at?, place, taken, reads, found, writes, Variable.value_of_write writes,
          Except.toOption]
      · cases other with
        | store s =>
          have differs : s ≠ name := by simpa [place] using apart
          simp [at?, reads, differs]
        | overlay | field => rfl
  | overlay bindings below inductionHypothesis =>
    unfold set at written
    split at written
    · next bound =>
      cases written
      refine ⟨by simp [at?, place, bound], by simp [at?, place, taken, bound],
        fun other apart => ?_⟩
      cases other with
      | store | field => rfl
      | overlay layer s =>
        cases layer with
        | succ layer => rfl
        | zero =>
          have differs : name ≠ s := by
            rintro rfl
            simp [place, bound] at apart
          simp [at?, Std.TreeMap.getElem?_insert, differs]
    · next free =>
      obtain ⟨after, stores, rfl⟩ := Value.map_eq_ok_iff.mp written
      obtain ⟨bound, now, elsewhere⟩ := inductionHypothesis stores
      have same : (overlay bindings below).place name = (below.place name).lower := by
        rw [place, if_neg free]
      refine ⟨by simpa [same] using bound, by simpa [same, taken, free] using now,
        fun other apart => ?_⟩
      rw [same] at apart
      cases other with
      | field => rfl
      | store s =>
        exact elsewhere (.store s) fun hit => apart (congrArg Place.lower hit)
      | overlay layer s =>
        cases layer with
        | zero => rfl
        | succ layer =>
          exact elsewhere (.overlay layer s) fun hit => apart (congrArg Place.lower hit)
  | readOnly below => cases written

/-- A name that is written is read as the value it holds. -/
theorem get_set {s t : Scope} {name : String} {v : Value} (written : s.set name v = .ok t) :
    t.get name = s.taken name v := by
  induction s generalizing t with
  | store vars =>
    obtain ⟨_, now, _⟩ := at?_set written
    obtain ⟨after, _, rfl⟩ := Value.map_eq_ok_iff.mp written
    rw [place, at?] at now
    rw [get, Variables.get, now, Option.getD_some]
  | overlay bindings below inductionHypothesis =>
    unfold set at written
    split at written
    · next bound =>
      cases written
      simp [get, taken, bound]
    · next free =>
      obtain ⟨after, stores, rfl⟩ := Value.map_eq_ok_iff.mp written
      have absent : bindings[name]? = none := by
        rw [Std.TreeMap.contains_eq_isSome_getElem?] at free
        simpa using free
      rw [get, absent, taken, if_neg free]
      exact inductionHypothesis stores
  | readOnly below => cases written

theorem place_ne_field (s : Scope) (name : String) (object : Nat) (field : String) :
    s.place name ≠ .field object field := by
  induction s with
  | store => nofun
  | overlay bindings below inductionHypothesis =>
    unfold place
    split
    · nofun
    · cases found : below.place name <;> simp_all [Place.lower]
  | readOnly below inductionHypothesis =>
    unfold place
    cases found : below.place name <;> simp_all [Place.lower]

theorem get_of_place {s : Scope} {name : String} {v : Value}
    (found : s.at? (s.place name) = some v) : s.get name = v := by
  induction s with
  | store vars =>
    rw [place, at?] at found
    rw [get, Variables.get, found, Option.getD_some]
  | overlay bindings below inductionHypothesis =>
    rw [get]
    by_cases bound : bindings.contains name
    · rw [place, if_pos bound, at?] at found
      rw [found, Option.getD_some]
    · rw [place, if_neg bound, at?_overlay_lower] at found
      rw [Std.TreeMap.contains_eq_isSome_getElem?] at bound
      rw [show bindings[name]? = none by simpa using bound]
      exact inductionHypothesis found
  | readOnly below inductionHypothesis =>
    refine inductionHypothesis ?_
    cases beneath : below.place name with
    | field object field => exact absurd beneath (below.place_ne_field name object field)
    | store | overlay => simpa [place, beneath, Place.lower, at?] using found

end Scope

namespace World

/-- The value in a place, if the place is there. -/
def at? (w : World) : Place → Option Value
  | .field object name => do
    let o ← w.heap.objects[object]?
    o.fields[name]?
  | place => w.scope.at? place

/-- Two worlds that differ in the values in places only: the layers, the declarations of
variables and the objects are the same. -/
structure SameFrame (w w' : World) : Prop where
  scope : w.scope.SameFrame w'.scope
  objects : w'.heap.objects.map Object.header = w.heap.objects.map Object.header

/-- A value has been written to a place that was there, and nothing else has changed. -/
structure WroteAt (place : Place) (v : Value) (w w' : World) : Prop where
  bound : (w.at? place).isSome = true
  now : w'.at? place = some v
  elsewhere : ∀ other, other ≠ place → w'.at? other = w.at? other
  frame : w.SameFrame w'

theorem at?_of_sameState {u v : World} (same : u.SameState v) (place : Place) :
    v.at? place = u.at? place := by
  cases place with
  | field => rw [at?, at?, same.2]
  | store | overlay => rw [at?, at?, same.1] <;> nofun

theorem WroteAt.of_sameState {place : Place} {v : Value} {u u' w w' : World}
    (wrote : u.WroteAt place v u') (before : u.SameState w) (after : u'.SameState w') :
    w.WroteAt place v w' := by
  refine ⟨?_, ?_, fun other apart => ?_, ?_, ?_⟩
  · rw [at?_of_sameState before]
    exact wrote.bound
  · rw [at?_of_sameState after]
    exact wrote.now
  · rw [at?_of_sameState after, at?_of_sameState before]
    exact wrote.elsewhere other apart
  · rw [before.1, after.1]
    exact wrote.frame.scope
  · rw [before.2, after.2]
    exact wrote.frame.objects

theorem at?_of_not_field (w : World) {place : Place}
    (inScope : ∀ object name, place ≠ .field object name) :
    w.at? place = w.scope.at? place := by
  cases place with
  | field object name => exact absurd rfl (inScope object name)
  | store | overlay => rfl

/-- Writing a name. -/
theorem wroteAt_set {w : World} {name : String} {v : Value} {scope : Scope}
    (written : w.scope.set name v = .ok scope) :
    w.WroteAt (w.scope.place name) (w.scope.taken name v) { w with scope } := by
  obtain ⟨bound, now, elsewhere⟩ := Scope.at?_set written
  have inScope := w.scope.place_ne_field name
  refine ⟨?_, ?_, fun other apart => ?_, Scope.sameFrame_set written, rfl⟩
  · rwa [at?_of_not_field w inScope]
  · rwa [at?_of_not_field _ inScope]
  · cases other with
    | field => rfl
    | store | overlay => exact elsewhere _ apart

/-- Writing a field. -/
theorem wroteAt_write {w : World} {ref : ObjectRef} {name : String} {v : Value} {heap : Heap}
    (written : w.heap.write ref name v = .ok heap) :
    w.WroteAt (.field ref.index name) v { w with heap } := by
  obtain ⟨bound, headers⟩ := Heap.bound_of_write written
  have reads := Heap.field?_write written
  refine ⟨bound, ?_, fun other apart => ?_, .refl _, headers⟩
  · have now := reads ref name
    rwa [if_pos ⟨rfl, rfl⟩] at now
  · cases other with
    | field object field =>
      have same := reads ⟨object, ""⟩ field
      rwa [if_neg (fun both => apart (by rw [← both.1, ← both.2]))] at same
    | store | overlay => rfl

end World

end Formulae
