import Formulae.Expression.Source
import Formulae.Proofs.Evaluation.Preservation

/-!
Evaluation in a read-only scope.

A scope with a read-only layer anywhere in it refuses every write, and evaluation reaches
no object behind its back. A read-only expression brings such a layer with it; a source that
holds an expression brings none of its own.
-/

namespace Formulae

open Eval

namespace World

/-- What is kept between two worlds of which the first is read-only. -/
def Guarded (u v : World) : Prop :=
  v.scope.isReadOnly = u.scope.isReadOnly ∧ (u.scope.isReadOnly = true → u.SameState v)

end World

theorem Scope.isReadOnly_set {s t : Scope} {name : String} {v : Value}
    (written : s.set name v = .ok t) :
    t.isReadOnly = s.isReadOnly := by
  induction s generalizing t with
  | store vars =>
    cases result : vars.set name v with
    | error refusal => simp [Scope.set, result, Except.map] at written
    | ok after =>
      simp only [Scope.set, result, Except.map, Except.ok.injEq] at written
      subst written
      rfl
  | overlay bindings below inductionHypothesis =>
    unfold Scope.set at written
    split at written
    · cases written
      rfl
    · cases result : below.set name v with
      | error refusal => simp [result, Except.map] at written
      | ok after =>
        simp only [result, Except.map, Except.ok.injEq] at written
        subst written
        have kept := inductionHypothesis result
        exact kept
  | readOnly below => cases written

theorem Eval.isReadOnly_setVariable (name : String) (v : Value) (w : World) :
    ((setVariable name v).final w).scope.isReadOnly = w.scope.isReadOnly := by
  unfold final
  rw [setVariable_apply]
  cases written : w.scope.set name v with
  | ok after => exact Scope.isReadOnly_set written
  | error refusal => rfl

theorem Eval.scope_setMember (container key v : Value) (w : World) :
    ((setMember container key v).final w).scope = w.scope := by
  unfold final
  rw [setMember_apply]
  cases container.setMember w.heap key v <;> rfl

/-- The writes that change a world are made in scopes that take writes only. -/
theorem World.guarded_law : Law World.Guarded where
  refl w := ⟨rfl, fun _ => ⟨rfl, rfl⟩⟩
  trans := by
    intro u v w first second
    refine ⟨second.1.trans first.1, fun readOnly => ?_⟩
    obtain ⟨scope, heap⟩ := first.2 readOnly
    obtain ⟨scope', heap'⟩ := second.2 (first.1.trans readOnly)
    exact ⟨scope'.trans scope, heap'.trans heap⟩
  isReadOnly related := related.1
  provide p w := ⟨rfl, fun _ => ⟨rfl, rfl⟩⟩
  setVariable name v w writable :=
    ⟨isReadOnly_setVariable name v w, fun readOnly => by rw [writable] at readOnly; cases readOnly⟩
  setMember container key v w writable :=
    ⟨by rw [scope_setMember], fun readOnly => by rw [writable] at readOnly; cases readOnly⟩

theorem Eval.sameState_under_readOnly {α : Type} {act : Eval α}
    (guarded : Keeps World.Guarded act) (w : World) :
    w.SameState ((under .readOnly act).final w) := by
  obtain ⟨scope, heap⟩ := (guarded { w with scope := .readOnly w.scope }).2 rfl
  rw [final_under]
  exact ⟨congrArg Scope.beneath scope, heap⟩

namespace Expression

/-- What is asked of the result does not change where an evaluation ends. -/
theorem final_expecting (kind : Kind) (act : Eval Value) (w : World) :
    (expecting kind act).final w = act.final w := by
  unfold expecting
  rw [final_bind]
  unfold final
  cases act w with
  | ok v u =>
    by_cases same : v.kind = kind
    · simp only [if_pos same]
      rfl
    · simp only [if_neg same]
      rfl
  | error => rfl

/-- An expression that is read-only changes nothing, and any other what its tree changes. -/
theorem sameState_execute_iff (host : Host) (e : Expression) (w : World) :
    w.SameState ((e.execute host).final w) ↔
      e.flavor = .readOnly ∨ ∀ t, e.outcome = .ready t → w.SameState ((t.eval host).final w) := by
  cases outcome : e.outcome with
  | blank | failed =>
    have absent : e.execute host = pure .empty := by
      rw [execute, outcome]
      rfl
    rw [absent]
    exact ⟨fun _ => .inr (by simp), fun _ => .refl w⟩
  | ready t =>
    rw [execute_of_ready outcome]
    by_cases reads : e.flavor = .readOnly
    · have guarded := sameState_under_readOnly (World.guarded_law.eval host t) w
      rw [if_pos reads]
      exact ⟨fun _ => .inl reads, fun _ => guarded⟩
    · rw [if_neg reads]
      simp [reads]

end Expression

/-- Where the scope is read-only, neither an evaluation nor a write changes a variable, a
layer or an object, whether it succeeds or fails. So it is for every read-only expression, in
every scope. A source is guarded by its expression alone: it changes nothing if the
expression is read-only, as it is if the source is made from a text, and otherwise what the
tree of the expression changes. -/
theorem readOnly_changes_nothing (host : Host) :
    (∀ (t : Tree) (w : World), w.scope.isReadOnly = true →
      w.SameState ((t.eval host).final w) ∧ ∀ v, w.SameState ((t.write host v).final w)) ∧
    (∀ (e : Expression) (w : World), e.flavor = .readOnly →
      w.SameState ((e.execute host).final w) ∧
        ∀ kind, w.SameState ((e.executeExpecting host kind).final w)) ∧
    (∀ (e : Expression) (w : World),
      let source := Source.expression e
      (w.SameState ((source.resolve host).final w) ↔
        e.flavor = .readOnly ∨
          ∀ t, e.outcome = .ready t → w.SameState ((t.eval host).final w)) ∧
      ∀ kind, (source.resolveExpecting host kind).final w = (source.resolve host).final w) ∧
    ∀ (presets : Presets) (content : String) (w : World),
      let source := Source.ofText presets content
      w.SameState ((source.resolve host).final w) ∧
        ∀ kind, w.SameState ((source.resolveExpecting host kind).final w) := by
  have executes (e : Expression) (w : World) (reads : e.flavor = .readOnly) :
      w.SameState ((e.execute host).final w) ∧
        ∀ kind, w.SameState ((e.executeExpecting host kind).final w) := by
    have same := (Expression.sameState_execute_iff host e w).mpr (.inl reads)
    exact ⟨same, fun kind => by rwa [Expression.executeExpecting, Expression.final_expecting]⟩
  refine ⟨fun t w readOnly => ⟨?_, fun v => ?_⟩, executes, fun e w => ⟨?_, fun kind => ?_⟩, ?_⟩
  · exact (World.guarded_law.eval host t w).2 readOnly
  · exact (World.guarded_law.write host t v w).2 readOnly
  · exact Expression.sameState_execute_iff host e w
  · exact Expression.final_expecting kind _ w
  · intro presets content w
    exact executes (.compile presets .readOnly content) w rfl

/-- A write to a field of a shared object, below an overlay over a read-only layer, changes
nothing. A step in a plain expression changes its variable, also where a source holds the
expression. -/
theorem readOnly_changes_nothing_of_object :
    let world : World :=
      { scope := .overlay (Std.TreeMap.ofList [("v", Value.int 1)])
          (.readOnly (.store
            (Std.TreeMap.ofList [("o", Variable.mk (.object ⟨0, "Record"⟩) false none)])))
        heap := ⟨[{ typeName := "Record", fields := Std.TreeMap.ofList [("f", Value.int 0)] }]⟩ }
    let tree : Tree := .assign default .assign
      (.member default (.name default "o") (.named "f")) (.name default "v")
    let counter : World :=
      { scope := .store (Std.TreeMap.ofList [("x", Variable.mk (.int 0) false none)]) }
    let plain := Expression.compile (.ofVocabulary {}) .plain "x++"
    world.scope.isReadOnly = true ∧ world.SameState ((tree.eval ⟨[]⟩).final world) ∧
      ¬ counter.SameState (((Source.expression plain).resolve ⟨[]⟩).final counter) := by
  intro world tree counter plain
  obtain ⟨guarded, _, sources, _⟩ := readOnly_changes_nothing ⟨[]⟩
  refine ⟨rfl, (guarded _ _ rfl).1, fun same => ?_⟩
  obtain reads | quiet := (sources plain counter).1.mp same
  · cases reads
  · have changed := quiet _ rfl
    have now := congrArg (Scope.get "x") changed.1
    cases now

end Formulae
