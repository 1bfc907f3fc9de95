import Formulae.Proofs.Evaluation.Confinement
import Formulae.Proofs.Evaluation.Simulation
import Formulae.Proofs.Spelling.RoundTrip

/-!
A read-only expression against the plain one of the same text.

Both compile to the same tree. The run of the read-only expression cannot go beyond a
write: it reports the first one that it comes to. Short of that the runs are the same, so
the plain expression has not written either.
-/

namespace Formulae

open Eval

namespace World

/-- The first world is the second one behind a read-only layer, and the second one is still in
the state of the origin. -/
structure Screened (origin u v : World) : Prop where
  screen : u = { v with scope := .readOnly v.scope }
  still : origin.SameState v

end World

/-- The write was refused because the scope, or what it reached, takes none. -/
def EvalError.ReportsReadOnly (e : EvalError) : Prop :=
  ∃ target kind, e = .refused target kind .readOnly

/-- The run behind a read-only layer gives up at its first write. -/
theorem World.screened_simulation (origin : World) :
    Simulation origin.Screened EvalError.ReportsReadOnly where
  get related s := by rw [related.screen, Scope.get]
  heap related := by rw [related.screen]
  reads related := by rw [related.screen]
  count related reads := ⟨by rw [related.screen], related.still⟩
  writes := .inr ⟨fun related => by rw [related.screen, Scope.isReadOnly],
    fun target kind => ⟨target, kind, rfl⟩⟩

namespace Eval

/-- The layer is gone afterwards, and with it the difference between the two runs. -/
theorem under_readOnly_of_parallel {act : Eval Value} {w : World}
    (parallel : Parallel w.Screened EvalError.ReportsReadOnly act)
    (reports : ∀ target kind,
      (under .readOnly act).outcome w ≠ .error (.refused target kind .readOnly)) :
    act w = under .readOnly act w ∧ w.SameState (act.final w) := by
  have reached := parallel { w with scope := .readOnly w.scope } w ⟨rfl, .refl w⟩
  unfold outcome at reports
  unfold under at reports ⊢
  unfold final
  dsimp only at reports ⊢
  generalize act { w with scope := .readOnly w.scope } = x, act w = y at reached reports
  cases reached with
  | ok v related =>
    obtain ⟨rfl, still⟩ := related
    exact ⟨rfl, still⟩
  | error e related =>
    obtain ⟨rfl, still⟩ := related
    exact ⟨rfl, still⟩
  | lost lost =>
    obtain ⟨target, kind, rfl⟩ := lost
    exact absurd rfl (reports target kind)

end Eval

namespace Expression

/-- The two flavors read every text alike: to the same tree, or with the same error. Where the
read-only expression does not report a refused write, the plain one comes to the same value or
error in the same world, and all variables, layers and objects are as they were. -/
theorem readOnly_agrees_with_plain (names : Vocabulary) (content : String) :
    let presets := Presets.ofVocabulary names
    let plain := compile presets .plain content
    let guarded := compile presets .readOnly content
    Tree.compile presets .plain content = Tree.compile presets .readOnly content ∧
    plain.outcome = guarded.outcome ∧
    ∀ (host : Host) (w : World),
      (∀ target kind, (guarded.execute host).outcome w ≠ .error (.refused target kind .readOnly)) →
      plain.execute host w = guarded.execute host w ∧ w.SameState ((plain.execute host).final w) := by
  intro presets plain guarded
  refine ⟨rfl, rfl, fun host w reports => ?_⟩
  have sameTree : plain.outcome.tree? = guarded.outcome.tree? := rfl
  unfold execute at reports ⊢
  rw [sameTree]
  cases found : guarded.outcome.tree? with
  | none => exact ⟨rfl, .refl w⟩
  | some tree =>
    rw [found] at reports
    exact under_readOnly_of_parallel ((World.screened_simulation w).eval host tree) reports

/-- A step in a branch that is not taken is no write. -/
theorem readOnly_agrees_with_plain_of_choice :
    let world : World := { scope := .store (Std.TreeMap.ofList
      [("ok", Variable.mk (.bool true) false none), ("n", Variable.mk (.int 5) false none)]) }
    let run (flavor : Flavor) := (compile (.ofVocabulary {}) flavor "ok ? n : ++n").execute ⟨[]⟩
    (run .readOnly).outcome world = .ok (.int 5) ∧ run .plain world = run .readOnly world ∧
      world.SameState ((run .plain).final world) := by
  intro world run
  let ts : List Token := [⟨.identifier, ⟨0, 2⟩, "ok", none⟩, ⟨.operator, ⟨3, 4⟩, "?", none⟩,
    ⟨.identifier, ⟨5, 6⟩, "n", none⟩, ⟨.operator, ⟨7, 8⟩, ":", none⟩,
    ⟨.operator, ⟨9, 11⟩, "++", none⟩, ⟨.identifier, ⟨11, 12⟩, "n", none⟩]
  have read : Token.read .expression "ok ? n : ++n".toList = .ok ts := by rfl
  have ready : (compile (.ofVocabulary {}) .readOnly "ok ? n : ++n").outcome = .ready
      (.choice ⟨⟨0, 12⟩, 3⟩ (.name ⟨⟨0, 2⟩, 1⟩ "ok") (.name ⟨⟨5, 6⟩, 1⟩ "n")
        (.unary ⟨⟨9, 12⟩, 2⟩ (.step .increment) (.name ⟨⟨11, 12⟩, 1⟩ "n"))) :=
    ready_of_tokens (by decide) (by decide) read (by rfl) nofun
  have reads : (run .readOnly).outcome world = .ok (.int 5) := by
    change Eval.outcome (execute ⟨[]⟩ (compile _ .readOnly _)) world = _
    rw [execute_of_ready ready]
    rfl
  have reports (target : String) (kind : Kind) :
      (run .readOnly).outcome world ≠ .error (.refused target kind .readOnly) := by
    rw [reads]
    nofun
  exact ⟨reads, (readOnly_agrees_with_plain {} "ok ? n : ++n").2.2 ⟨[]⟩ world reports⟩

end Expression

end Formulae
