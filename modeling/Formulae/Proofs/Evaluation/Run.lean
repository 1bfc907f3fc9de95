import Formulae.Expression.Assignment
import Formulae.Proofs.Evaluation.Place
import Formulae.Proofs.Evaluation.ReadOnly

/-!
Runs: what a sequence of actions leaves of the variables.

A host executes expressions, hands values to assignments and writes variables, in any order
and however the single actions end. What a variable is declared to be outlasts all of it:
its name, whether it takes writes, and the kind of what is written to it.
-/

namespace Formulae

open Eval

/-- What becomes of a variable. Its declaration stays, a fixed value stays, and what is
written to a variable of one kind is of that kind. -/
structure Variable.Kept (x y : Variable) : Prop where
  declaration : y.declaration = x.declaration
  fixed : x.readOnly = true → y.value = x.value
  typed : ∀ kind, x.kind = some kind → y.value = x.value ∨ y.value.kind = kind

namespace Variable.Kept

theorem refl (x : Variable) : x.Kept x := ⟨rfl, fun _ => rfl, fun _ _ => .inl rfl⟩

theorem trans {x y z : Variable} (first : x.Kept y) (second : y.Kept z) : x.Kept z := by
  obtain ⟨sameReadOnly, sameKind⟩ := Prod.mk.inj first.declaration
  refine ⟨second.declaration.trans first.declaration, fun readOnly => ?_, fun kind declared => ?_⟩
  · exact (second.fixed (sameReadOnly.trans readOnly)).trans (first.fixed readOnly)
  · rcases second.typed kind (sameKind.trans declared) with same | written
    · rw [same]
      exact first.typed kind declared
    · exact .inr written

end Variable.Kept

theorem Variable.kept_of_write {x y : Variable} {v : Value} (written : x.write v = .ok y) :
    x.Kept y := by
  refine ⟨declaration_of_write written, fun readOnly => ?_, fun kind declared => .inr ?_⟩
  · rw [write, if_pos readOnly] at written
    cases written
  · unfold write at written
    split at written
    · cases written
    · rw [declared] at written
      dsimp only at written
      split at written
      · next converts =>
        cases written
        exact Value.kind_of_convert? converts
      · cases written

/-- The same names are declared, and each variable is kept. -/
def Variables.Kept (vars after : Variables) : Prop :=
  ∀ name : String, Option.Rel Variable.Kept vars[name]? after[name]?

namespace Variables

theorem Kept.refl (vars : Variables) : vars.Kept vars := by
  intro name
  cases vars[name]? with
  | none => exact .none
  | some x => exact .some (.refl x)

theorem Kept.trans {first second third : Variables} (earlier : first.Kept second)
    (later : second.Kept third) : first.Kept third := by
  intro name
  have before := earlier name
  have after := later name
  generalize first[name]? = x, second[name]? = y, third[name]? = z at before after
  cases before with
  | none =>
    cases after
    exact .none
  | some kept =>
    cases after with
    | some kept' => exact .some (kept.trans kept')

theorem Kept.mem_iff {vars after : Variables} (kept : vars.Kept after) (name : String) :
    name ∈ after ↔ name ∈ vars := by
  rw [Std.TreeMap.mem_iff_isSome_getElem?, Std.TreeMap.mem_iff_isSome_getElem?]
  have related := kept name
  generalize vars[name]? = x, after[name]? = y at related ⊢
  cases related <;> rfl

theorem Kept.exists_of_getElem? {vars after : Variables} {name : String} {x : Variable}
    (kept : vars.Kept after) (found : vars[name]? = some x) :
    ∃ y, after[name]? = some y ∧ x.Kept y := by
  have related := kept name
  rw [found] at related
  generalize after[name]? = becomes at related ⊢
  cases related with
  | some becomes => exact ⟨_, rfl, becomes⟩

theorem kept_of_set {vars after : Variables} {name : String} {v : Value}
    (written : vars.set name v = .ok after) : vars.Kept after := by
  intro other
  rw [getElem?_set written]
  by_cases same : other = name
  · rw [if_pos same, same]
    unfold set at written
    split at written
    · cases written
    · next x found =>
      obtain ⟨y, writes, _⟩ := Value.map_eq_ok_iff.mp written
      rw [found, Option.bind_some, writes]
      exact .some (Variable.kept_of_write writes)
  · rw [if_neg same]
    exact Kept.refl vars other

end Variables

namespace Scope

theorem kept_of_set {s t : Scope} {name : String} {v : Value} (written : s.set name v = .ok t) :
    s.vars.Kept t.vars := by
  induction s generalizing t with
  | store vars =>
    obtain ⟨after, stores, rfl⟩ := Value.map_eq_ok_iff.mp written
    exact Variables.kept_of_set stores
  | overlay bindings below inductionHypothesis =>
    unfold set at written
    split at written
    · cases written
      exact .refl below.vars
    · obtain ⟨after, stores, rfl⟩ := Value.map_eq_ok_iff.mp written
      have kept := inductionHypothesis stores
      exact kept
  | readOnly below => cases written

theorem vars_beneath (s : Scope) : s.beneath.vars = s.vars := by
  cases s <;> rfl

end Scope

namespace World

/-- The variables under all layers are kept. -/
def VariablesKept (u v : World) : Prop := u.scope.vars.Kept v.scope.vars

theorem kept_setVariable (name : String) (v : Value) :
    Keeps VariablesKept (setVariable name v) := by
  intro w
  unfold final
  rw [setVariable_apply]
  cases written : w.scope.set name v with
  | ok after => exact Scope.kept_of_set written
  | error refusal => exact .refl w.scope.vars

/-- No operation that changes a world makes more of a variable than its declaration allows. -/
theorem kept_law :
    Law fun u v => v.scope.isReadOnly = u.scope.isReadOnly ∧ u.VariablesKept v where
  refl w := ⟨rfl, .refl w.scope.vars⟩
  trans first second := ⟨second.1.trans first.1, first.2.trans second.2⟩
  isReadOnly related := related.1
  provide _ w := ⟨rfl, .refl w.scope.vars⟩
  setVariable name v w _ := ⟨isReadOnly_setVariable name v w, kept_setVariable name v w⟩
  setMember container key v w _ := by
    refine ⟨by rw [scope_setMember], ?_⟩
    change w.scope.vars.Kept ((setMember container key v).final w).scope.vars
    rw [scope_setMember]
    exact .refl w.scope.vars

/-- A layer over the scope, taken off again, hides no variable from this. -/
theorem kept_under {α : Type} {act : Eval α} {layer : Scope → Scope}
    (same : ∀ scope, (layer scope).vars = scope.vars) (kept : Keeps VariablesKept act) :
    Keeps VariablesKept (under layer act) := by
  intro w
  have inside := kept { w with scope := layer w.scope }
  unfold VariablesKept at inside ⊢
  rw [final_under, Scope.vars_beneath, ← same]
  exact inside

end World

/-- What a host does with its scope. -/
inductive Task where
  | execute (e : Expression)
  | assign (a : Assignment) (v : Value)
  | set (name : String) (v : Value)

namespace Task

variable (host : Host)

/-- The world after a task, whether it succeeds or fails. -/
def perform (w : World) : Task → World
  | execute e => (e.execute host).final w
  | assign a v => (a.assign host v).final w
  | set name v => (setVariable name v).final w

/-- The world after tasks one after the other. -/
def run (tasks : List Task) (w : World) : World := tasks.foldl (perform host) w

theorem kept_execute (e : Expression) : Keeps World.VariablesKept (e.execute host) := by
  have kept (t : Tree) : Keeps World.VariablesKept (t.eval host) := fun w =>
    (World.kept_law.eval host t w).2
  unfold Expression.execute
  split
  · intro w
    exact .refl w.scope.vars
  · next tree _ =>
    split
    · apply World.kept_under
      · intro scope
        rfl
      · exact kept tree
    · exact kept tree

theorem kept_perform (task : Task) (w : World) : w.VariablesKept (task.perform host w) := by
  cases task with
  | execute e => exact kept_execute host e w
  | assign a v =>
    refine World.kept_under ?_ (kept_execute host a.inner) w
    intro scope
    rfl
  | set name v => exact World.kept_setVariable name v w

theorem kept_run (tasks : List Task) (w : World) : w.VariablesKept (run host tasks w) := by
  induction tasks generalizing w with
  | nil => exact .refl w.scope.vars
  | cons task tasks inductionHypothesis =>
    exact (kept_perform host task w).trans (inductionHypothesis (task.perform host w))

/-- Whatever is executed, assigned and written, in any order and with any outcome, the same
names are declared afterwards and in the same way. A variable that takes no writes has the
value that it had. A variable of one kind has the value that it had or a value of that
kind. -/
theorem declarations_survive (tasks : List Task) (w : World) :
    let vars := w.scope.vars
    let after := (run host tasks w).scope.vars
    (∀ name, name ∈ after ↔ name ∈ vars) ∧
    ∀ (name : String) (x : Variable), vars[name]? = some x →
      ∃ y, after[name]? = some y ∧ y.declaration = x.declaration ∧
        (x.readOnly = true → y.value = x.value) ∧
        ∀ kind, x.kind = some kind → y.value = x.value ∨ y.value.kind = kind := by
  intro vars after
  have kept : vars.Kept after := kept_run host tasks w
  refine ⟨kept.mem_iff, fun name x found => ?_⟩
  obtain ⟨y, found', becomes⟩ := kept.exists_of_getElem? found
  exact ⟨y, found', becomes.declaration, becomes.fixed, becomes.typed⟩

/-- A member of a fixed list is assigned, in vain, between two writes of a variable that
takes numbers only. -/
theorem declarations_survive_of_list :
    let vars : Variables := .ofList [("k", Variable.mk (.list [.int 1]) true none),
      ("n", Variable.mk (.int 1) false (some .int))]
    let item : Tree := .assign default .assign
      (.member default (.name default "k") (.keyed (.literal default "0" (.int 0))))
      (.name default "n")
    let tasks : List Task := [.set "n" (.int 2),
      .execute ⟨.assignment, "k[0] = n", .ready item⟩, .set "n" (.string "a")]
    let after := (run ⟨[]⟩ tasks ⟨.store vars, {}, ∅⟩).scope.vars
    after.get "n" = .int 2 ∧
      ∃ y, after["k"]? = some y ∧ y.declaration = (true, none) ∧ y.value = .list [.int 1] := by
  intro vars item tasks after
  refine ⟨rfl, ?_⟩
  obtain ⟨y, found, declaration, fixed, _⟩ :=
    (declarations_survive ⟨[]⟩ tasks ⟨.store vars, {}, ∅⟩).2 "k" _ rfl
  exact ⟨y, found, declaration, fixed rfl⟩

end Task

end Formulae
