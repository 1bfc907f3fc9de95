import Formulae.Value.Basic
import Std.Data.TreeMap

/-!
Host objects: named fields behind a reference.

Every value that refers to an object sees the same fields. A write replaces a
field that exists; an object may refuse what is written to some of its fields, or to all.
-/

namespace Formulae

/-- Why a write changes nothing. -/
inductive Refusal where
  | notFound
  | readOnly
  | typeMismatch
  deriving DecidableEq, Repr

/-- How a write went, with what it leaves behind. -/
inductive Write (α : Type) where
  | done (left : α)
  | refused (refusal : Refusal) (left : α)

namespace Write

variable {α β : Type}

/-- What the write came to; of one that is refused, the refusal alone. -/
def result : Write α → Except Refusal α
  | done a => .ok a
  | refused refusal _ => .error refusal

def left : Write α → α
  | done a => a
  | refused _ a => a

def map (f : α → β) : Write α → Write β
  | done a => done (f a)
  | refused refusal a => refused refusal (f a)

/-- If it is refused, the write leaves what was there. -/
def Atomic (before : α) : Write α → Prop
  | done _ => True
  | refused _ left => left = before

@[simp] theorem result_map (write : Write α) (f : α → β) :
    (write.map f).result = write.result.map f := by
  cases write <;> rfl

theorem result_eq_ok_iff {write : Write α} {a : α} : write.result = .ok a ↔ write = done a := by
  cases write <;> simp [result]

theorem map_map {γ : Type} (write : Write α) (f : α → β) (g : β → γ) :
    (write.map f).map g = write.map fun a => g (f a) := by
  cases write <;> rfl

theorem map_eq_done_iff {write : Write α} {f : α → β} {b : β} :
    write.map f = done b ↔ ∃ a, write = done a ∧ f a = b := by
  cases write <;> simp [map]

theorem Atomic.map {before : α} {write : Write α} (atomic : write.Atomic before) (f : α → β) :
    (write.map f).Atomic (f before) := by
  cases write with
  | done => trivial
  | refused => exact congrArg f atomic

theorem Atomic.left_eq {before : α} {write : Write α} {refusal : Refusal}
    (atomic : write.Atomic before) (refused : write.result = .error refusal) :
    write.left = before := by
  cases write with
  | done => cases refused
  | refused => exact atomic

end Write

structure Object where
  typeName : String
  fields : Std.TreeMap String Value
  /-- How the object refuses a value for a field, if it does. -/
  refusal : String → Value → Option Refusal := fun _ _ => none

namespace Object

def write (o : Object) (name : String) (v : Value) : Except Refusal Object :=
  match o.refusal name v with
  | some refusal => .error refusal
  | none =>
    if o.fields.contains name then .ok { o with fields := o.fields.insert name v }
    else .error .notFound

end Object

/-- The objects of a host, in the order of their declaration. -/
structure Heap where
  objects : List Object := []

namespace Heap

def field? (heap : Heap) (ref : ObjectRef) (name : String) : Option Value := do
  let o ← heap.objects[ref.index]?
  o.fields[name]?

def write (heap : Heap) (ref : ObjectRef) (name : String) (v : Value) : Except Refusal Heap :=
  match heap.objects[ref.index]? with
  | none => .error .notFound
  | some o => (o.write name v).map fun o => ⟨heap.objects.set ref.index o⟩

theorem field?_write {heap after : Heap} {ref : ObjectRef} {name : String} {v : Value}
    (h : heap.write ref name v = .ok after) (other : ObjectRef) (field : String) :
    after.field? other field =
      if other.index = ref.index ∧ field = name then some v else heap.field? other field := by
  unfold write at h
  split at h
  · cases h
  · next o found =>
    unfold Object.write at h
    split at h
    · cases h
    · split at h
      · simp only [Except.map, Except.ok.injEq] at h
        subst h
        have inside := (List.getElem?_eq_some_iff.1 found).1
        unfold field?
        simp only [List.getElem?_set]
        by_cases same : other.index = ref.index
        · rw [same]
          simp only [if_true, if_pos inside, found, Option.bind_eq_bind, Option.bind_some,
            Std.TreeMap.getElem?_insert, true_and]
          by_cases named : field = name
          · simp [named]
          · simp [named, Ne.symm named]
        · simp [same, Ne.symm same]
      · cases h

end Heap

end Formulae
