import Mathlib.Data.List.Forall2
import Formulae.Host.Function
import Formulae.Proofs.Evaluation.Place

/-!
What a call makes of its arguments, and whose body gets them.

A parameter takes a value of its own kind and, for a double, an integer. A call comes to the
body of the first overload all of whose parameters take their arguments, on the arguments as
that overload receives them. The bodies of the other overloads have no part in it.
-/

namespace Formulae

/-- Whether a parameter of the kind takes the value. -/
def Kind.Accepts (k : Kind) (v : Value) : Prop := v.kind = k ∨ k = .float ∧ v.kind = .int

/-- The argument as it is bound to a parameter of the kind. -/
def Kind.taken (k : Kind) (v : Value) : Value := if k = .float then v.asDouble else v

theorem Value.convert?_eq_some_iff {k : Kind} {v w : Value} :
    v.convert? k = some w ↔ k.Accepts v ∧ w = k.taken v := by
  cases v with
  | int i =>
    cases k <;> simp [convert?, Kind.Accepts, Kind.taken, asDouble, kind, eq_comm]
  | _ =>
    simp only [convert?, Option.ite_none_right_eq_some, Option.some.injEq, Kind.Accepts,
      Kind.taken, asDouble, ite_self]
    simp [kind, eq_comm]

namespace Overload

theorem convertAll?_eq_some_iff {kinds : List Kind} {args bound : List Value} :
    convertAll? kinds args = some bound ↔
      List.Forall₂ Kind.Accepts kinds args ∧ bound = kinds.zipWith Kind.taken args := by
  induction kinds generalizing args bound with
  | nil => cases args <;> simp [convertAll?, eq_comm]
  | cons k ks inductionHypothesis =>
    cases args with
    | nil => simp [convertAll?]
    | cons v vs =>
      simp only [convertAll?, Option.bind_eq_bind, Option.bind_eq_some_iff, Option.pure_def,
        Option.some.injEq, Value.convert?_eq_some_iff, inductionHypothesis,
        List.forall₂_cons, List.zipWith_cons_cons]
      constructor
      · rintro ⟨_, ⟨head, rfl⟩, _, ⟨tail, rfl⟩, rfl⟩
        exact ⟨⟨head, tail⟩, rfl⟩
      · rintro ⟨⟨head, tail⟩, rfl⟩
        exact ⟨_, ⟨head, rfl⟩, _, ⟨tail, rfl⟩, rfl⟩

/-- There are as many parameters as arguments, and each takes its own. -/
def Accepts (o : Overload) (args : List Value) : Prop :=
  ∀ kinds, o.params = some kinds → List.Forall₂ Kind.Accepts kinds args

/-- The arguments as the body gets them. -/
def received (o : Overload) (args : List Value) : List Value :=
  match o.params with
  | none => args
  | some kinds => kinds.zipWith Kind.taken args

theorem bind?_eq_some_iff {o : Overload} {args bound : List Value} :
    o.bind? args = some bound ↔ o.Accepts args ∧ bound = o.received args := by
  unfold bind? Accepts received
  cases o.params with
  | none => simp [eq_comm]
  | some kinds => simp [convertAll?_eq_some_iff]

theorem bind?_eq_none_iff {o : Overload} {args : List Value} :
    o.bind? args = none ↔ ¬ o.Accepts args := by
  rw [Option.eq_none_iff_forall_ne_some]
  simp [bind?_eq_some_iff]

theorem kind_received {o : Overload} {args : List Value} (accepts : o.Accepts args)
    {kinds : List Kind} (declared : o.params = some kinds) :
    (o.received args).map Value.kind = kinds := by
  have bound : o.bind? args = some (o.received args) := bind?_eq_some_iff.mpr ⟨accepts, rfl⟩
  rw [bind?, declared] at bound
  exact map_kind_of_convertAll? bound

end Overload

namespace Function

/-- The overload at a position is the first one that accepts the arguments. -/
structure Chooses (f : Function) (args : List Value) (i : Nat) (o : Overload) : Prop where
  here : f.overloads[i]? = some o
  accepts : o.Accepts args
  first : ∀ j p, j < i → f.overloads[j]? = some p → ¬ p.Accepts args

/-- No overload accepts the arguments. -/
def Refuses (f : Function) (args : List Value) : Prop := ∀ o ∈ f.overloads, ¬ o.Accepts args

/-- The function with other bodies, one for each position. -/
def withBodies (f : Function) (bodies : Nat → List Value → Except String Value) : Function :=
  { f with overloads := f.overloads.mapIdx fun i o => { o with body := bodies i } }

variable {f : Function} {args : List Value} {i : Nat} {o : Overload}
variable {bodies : Nat → List Value → Except String Value}

theorem getElem?_withBodies (bodies : Nat → List Value → Except String Value) :
    (f.withBodies bodies).overloads[i]? =
      f.overloads[i]?.map fun o => { o with body := bodies i } := by
  simp [withBodies]

theorem exists_of_withBodies {p : Overload} (found : (f.withBodies bodies).overloads[i]? = some p) :
    ∃ q, f.overloads[i]? = some q ∧ ∀ args, p.Accepts args ↔ q.Accepts args := by
  rw [getElem?_withBodies] at found
  obtain ⟨q, there, rfl⟩ := Option.map_eq_some_iff.mp found
  exact ⟨q, there, fun _ => .rfl⟩

theorem select?_eq_some_iff {bound : List Value} :
    f.select? args = some (o, bound) ↔ (∃ i, f.Chooses args i o) ∧ bound = o.received args := by
  have binds (p : Overload) :
      ((p.bind? args).map fun bound => (p, bound)) = some (o, bound) ↔
        p = o ∧ o.Accepts args ∧ bound = o.received args := by
    simp only [Option.map_eq_some_iff, Overload.bind?_eq_some_iff, Prod.mk.injEq]
    constructor
    · rintro ⟨_, accepted, rfl, rfl⟩
      exact ⟨rfl, accepted⟩
    · rintro ⟨rfl, accepted⟩
      exact ⟨_, accepted, rfl, rfl⟩
  -- The overloads are split at the hit, whose position is the length of what stands before it.
  rw [select?, List.findSome?_eq_some_iff]
  simp only [binds, Option.map_eq_none_iff, Overload.bind?_eq_none_iff]
  constructor
  · rintro ⟨before, p, after, split, ⟨rfl, accepts, same⟩, earlier⟩
    refine ⟨⟨before.length, by simp [split], accepts, ?_⟩, same⟩
    intro j p less found
    rw [split, List.getElem?_append_left less] at found
    exact earlier p (List.mem_of_getElem? found)
  · rintro ⟨⟨i, here, accepts, first⟩, same⟩
    obtain ⟨less, rfl⟩ := List.getElem?_eq_some_iff.mp here
    refine ⟨f.overloads.take i, _, f.overloads.drop (i + 1), ?_, ⟨rfl, accepts, same⟩, ?_⟩
    · simp
    · intro p earlier
      obtain ⟨j, found⟩ := List.mem_iff_getElem?.mp earlier
      rw [List.getElem?_take] at found
      split at found
      · next less => exact first j p less found
      · cases found

theorem select?_eq_none_iff : f.select? args = none ↔ f.Refuses args := by
  simp [select?, Refuses, Overload.bind?_eq_none_iff]

theorem chooses_or_refuses (f : Function) (args : List Value) :
    (∃ i o, f.Chooses args i o) ∨ f.Refuses args := by
  cases selected : f.select? args with
  | none => exact .inr (select?_eq_none_iff.mp selected)
  | some selection =>
    obtain ⟨⟨i, chosen⟩, _⟩ := select?_eq_some_iff.mp selected
    exact .inl ⟨i, _, chosen⟩

theorem Chooses.call_eq (chosen : f.Chooses args i o) :
    f.call args = (o.body (o.received args)).mapError (.failed f.name) := by
  have selected : f.select? args = some (o, o.received args) :=
    select?_eq_some_iff.mpr ⟨⟨i, chosen⟩, rfl⟩
  rw [call, selected]

theorem Refuses.call_eq (refused : f.Refuses args) :
    f.call args = .error (.noOverload f.name (args.map Value.kind)) := by
  rw [call, select?_eq_none_iff.mpr refused]

theorem Chooses.withBodies (chosen : f.Chooses args i o)
    (bodies : Nat → List Value → Except String Value) :
    (f.withBodies bodies).Chooses args i { o with body := bodies i } where
  here := by rw [getElem?_withBodies, chosen.here]; rfl
  accepts := chosen.accepts
  first j p less found := by
    obtain ⟨q, there, same⟩ := exists_of_withBodies found
    rw [same args]
    exact chosen.first j q less there

theorem Refuses.withBodies (refused : f.Refuses args)
    (bodies : Nat → List Value → Except String Value) : (f.withBodies bodies).Refuses args := by
  intro p member
  obtain ⟨j, found⟩ := List.mem_iff_getElem?.mp member
  obtain ⟨q, there, same⟩ := exists_of_withBodies found
  rw [same args]
  exact refused q (List.mem_of_getElem? there)

/-- A call is refused for want of an overload exactly if none accepts the arguments. What a
body answers is never taken for such a refusal. -/
theorem call_eq_noOverload_iff :
    (∃ name kinds, f.call args = .error (.noOverload name kinds)) ↔ f.Refuses args := by
  constructor
  · rintro ⟨name, kinds, refusal⟩
    obtain ⟨i, o, chosen⟩ | refused := f.chooses_or_refuses args
    · -- An error of the body comes back as a failure, which is no refusal.
      rw [chosen.call_eq] at refusal
      cases answer : o.body (o.received args) <;> rw [answer] at refusal <;> cases refusal
    · exact refused
  · intro refused
    exact ⟨_, _, refused.call_eq⟩

end Function

end Formulae
