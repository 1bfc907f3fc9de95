import Formulae.Proofs.Host.Binding
import Formulae.Standard.Basic

/-!
What the bodies of the standard functions read.

The parameters of a routine declare each of its reads, and a call binds the arguments to them
before the body runs. So every read finds an argument, and one of its kind: no body reads past
the last argument, and none takes zero for a value of another kind.
-/

namespace Formulae

namespace Standard

variable {params : List Kind} {args : List Value}

namespace Read

/-- The read finds an argument that is no other kind of value. A padded read need not find any. -/
def Served (args : List Value) : Read → Prop
  | word i => ∃ v, args[i]? = some v ∧ v.asInt?.isSome
  | float i => ∃ v, args[i]? = some v ∧ v.asFloat?.isSome
  | padded i => ∀ v, args[i]? = some v → v.asFloat?.isSome

theorem served_of_declared {r : Read} (bound : args.map Value.kind = params)
    (declared : r.Declared params) : r.Served args := by
  subst bound
  cases r with
  | word i =>
    rw [Declared, List.getElem?_map, Option.map_eq_some_iff] at declared
    obtain ⟨v, found, kind⟩ := declared
    exact ⟨v, found, Value.asInt?_isSome_iff.mpr kind⟩
  | float i =>
    rw [Declared, List.getElem?_map, Option.map_eq_some_iff] at declared
    obtain ⟨v, found, kind⟩ := declared
    exact ⟨v, found, Value.asFloat?_isSome_iff.mpr (.inr kind)⟩
  | padded i =>
    intro v found
    have kind : v.kind = .float := declared v.kind (by rw [List.getElem?_map, found]; rfl)
    exact Value.asFloat?_isSome_iff.mpr (.inr kind)

theorem Served.exists_answer {r : Read} (served : r.Served args) :
    ∃ x, r.answer? args = some x := by
  cases r with
  | word | float =>
    obtain ⟨v, found, _⟩ := served
    exact ⟨_, by rw [answer?, found]; rfl⟩
  | padded => exact ⟨_, rfl⟩

end Read

namespace Body

/-- The reads that a run of the body makes, in their order. -/
def reads (args : List Value) : Body → List Read
  | done _ => []
  | read r next => r :: (r.answer? args).elim [] fun x => (next x).reads args

theorem mem_reads {first r : Read} {next : first.Result → Body} {x : first.Result}
    (answer : first.answer? args = some x) :
    r ∈ (read first next).reads args ↔ r = first ∨ r ∈ (next x).reads args := by
  rw [reads, answer, Option.elim_some, List.mem_cons]

theorem served_of_declared {b : Body} (bound : args.map Value.kind = params)
    (declared : b.Declared params) : ∀ r ∈ b.reads args, r.Served args := by
  induction b with
  | done => exact fun _ member => nomatch member
  | read first next inductionHypothesis =>
    obtain ⟨head, tail⟩ := declared
    -- A read that is served has an answer, and what follows it is declared for every answer.
    have served : first.Served args := Read.served_of_declared bound head
    obtain ⟨x, answer⟩ := served.exists_answer
    intro r member
    obtain rfl | later := (mem_reads answer).mp member
    · exact served
    · exact inductionHypothesis x (tail x) r later

theorem exists_result {b : Body} (served : ∀ r ∈ b.reads args, r.Served args) :
    ∃ result, b.run? args = some result := by
  induction b with
  | done result => exact ⟨result, rfl⟩
  | read first next inductionHypothesis =>
    obtain ⟨x, answer⟩ := (served first (by simp [reads])).exists_answer
    rw [run?, answer, Option.bind_some]
    exact inductionHypothesis x fun r later => served r ((mem_reads answer).mpr (.inr later))

/-- A run looks at the arguments through its reads alone. -/
theorem run?_congr {b : Body} {args' : List Value}
    (same : ∀ r ∈ b.reads args, r.answer? args' = r.answer? args) :
    b.run? args' = b.run? args := by
  induction b with
  | done => rfl
  | read first next inductionHypothesis =>
    have head : first.answer? args' = first.answer? args := same first (by simp [reads])
    rw [run?, run?, head]
    cases answer : first.answer? args with
    | none => rfl
    | some x =>
      exact inductionHypothesis x fun r later => same r ((mem_reads answer).mpr (.inr later))

end Body

theorem Routine.body_of_run? {r : Routine} {result : Except String Value}
    (runs : r.body.run? args = some result) : r.overload.body args = result := by
  change (r.body.run? args).getD _ = result
  rw [runs, Option.getD_some]

theorem Definition.exists_routine {d : Definition} {i : Nat} {o : Overload}
    (chosen : d.function.Chooses args i o) :
    ∃ r, d.routines[i]? = some r ∧ o = r.overload := by
  have here : (d.routines.map Routine.overload)[i]? = some o := chosen.here
  rw [List.getElem?_map, Option.map_eq_some_iff] at here
  obtain ⟨r, found, same⟩ := here
  exact ⟨r, found, same.symm⟩

end Standard

open Standard

/-- A call runs the body of the first overload that accepts the arguments, on the arguments as
that overload receives them, whatever the other bodies are, and is refused exactly if none
accepts. So each read of a standard function finds an argument of its kind. -/
theorem calls_protect_bodies :
    (∀ (f : Function) (args : List Value),
      ((∃ i o, f.Chooses args i o) ∨ f.Refuses args) ∧
      (∀ i o, f.Chooses args i o →
        f.call args = (o.body (o.received args)).mapError (.failed f.name) ∧
        (∀ bodies, (f.withBodies bodies).call args =
          (bodies i (o.received args)).mapError (.failed f.name)) ∧
        ∀ kinds, o.params = some kinds → (o.received args).map Value.kind = kinds) ∧
      (f.Refuses args → ∀ bodies, (f.withBodies bodies).call args =
        .error (.noOverload f.name (args.map Value.kind))) ∧
      ((∃ name kinds, f.call args = .error (.noOverload name kinds)) ↔ f.Refuses args)) ∧
    ∀ d ∈ definitions, ∀ args i o, d.function.Chooses args i o →
      ∃ r, d.routines[i]? = some r ∧ o = r.overload ∧
        (∀ read ∈ r.body.reads (o.received args), read.Served (o.received args)) ∧
        ∃ result, r.body.run? (o.received args) = some result ∧
          d.function.call args = result.mapError (.failed d.name) := by
  constructor
  · intro f args
    refine ⟨f.chooses_or_refuses args, fun i o chosen => ⟨chosen.call_eq, fun bodies => ?_, ?_⟩,
      fun refused bodies => (refused.withBodies bodies).call_eq, Function.call_eq_noOverload_iff⟩
    · exact (chosen.withBodies bodies).call_eq
    · exact fun kinds declared => Overload.kind_received chosen.accepts declared
  · intro d _ args i o chosen
    obtain ⟨r, found, rfl⟩ := Definition.exists_routine chosen
    have bound : (r.overload.received args).map Value.kind = r.params :=
      Overload.kind_received chosen.accepts rfl
    have served := Body.served_of_declared bound r.declared
    obtain ⟨result, runs⟩ := Body.exists_result served
    refine ⟨r, found, rfl, served, result, runs, ?_⟩
    rw [chosen.call_eq, Routine.body_of_run? runs]
    rfl

/-- The larger of an integer and a double. The first overload takes two integers and does not
accept them; the second gets the integer as a double. -/
theorem calls_protect_bodies_of_max :
    let args := [.int 2, .float 0.5]
    ∃ d, definitions[5]? = some d ∧ d.name = "Max" ∧ ∃ r, d.routines[1]? = some r ∧
      d.function.Chooses args 1 r.overload ∧
      r.overload.received args = [.float (Value.widen 2), .float 0.5] ∧
      r.body.reads (r.overload.received args) = [.float 0, .float 1] ∧
      (∀ read ∈ r.body.reads (r.overload.received args),
        read.Served (r.overload.received args)) ∧
      d.function.call args = .ok (.float (Rounding.larger (Value.widen 2) 0.5)) := by
  intro args
  have chosen : (Definition.function ⟨"Max", [.onWords2 fun i j => .ok (.int (larger i j)),
      .onFloats2 fun x y => .ok (.float (Rounding.larger x y))]⟩).Chooses args 1
      (Routine.onFloats2 fun x y => .ok (.float (Rounding.larger x y))).overload := by
    refine ⟨rfl, ?_, ?_⟩
    · rintro _ ⟨⟩
      exact .cons (.inr ⟨rfl, rfl⟩) (.cons (.inl rfl) .nil)
    · intro j p less found accepts
      obtain rfl : j = 0 := by omega
      cases found
      have both : List.Forall₂ Kind.Accepts [.int, .int] [.int 2, .float 0.5] := accepts _ rfl
      simp [Kind.Accepts, Value.kind] at both
  obtain ⟨general, standard⟩ := calls_protect_bodies
  have runs := ((general _ args).2.1 1 _ chosen).1
  obtain ⟨r, found, _, served, _⟩ :=
    standard _ (List.mem_of_getElem? (i := 5) rfl) args 1 _ chosen
  cases found
  exact ⟨_, rfl, rfl, _, rfl, chosen, rfl, rfl, served, runs⟩

end Formulae
