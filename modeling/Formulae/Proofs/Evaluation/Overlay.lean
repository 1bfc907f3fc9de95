import Mathlib.Data.List.Forall2
import Formulae.Expression.Assignment
import Formulae.Proofs.Evaluation.Confinement
import Formulae.Proofs.Evaluation.Preservation
import Formulae.Proofs.Evaluation.ReadOnly
import Formulae.Proofs.Evaluation.Simulation

/-!
Overlays against one flat store.

A stack of overlays behaves as the variables in which each of its names is replaced by an
ordinary variable with the value of the outermost layer that binds it. The names of a layer
hide what is bound beneath it: that stays bound as it was through every evaluation.
-/

namespace Formulae

open Eval

theorem getElem?_insert_eq {β : Type} (table : Std.TreeMap String β) (s r : String) (x : β) :
    (table.insert s x)[r]? = if r = s then some x else table[r]? := by
  rw [Std.TreeMap.getElem?_insert]
  simp only [Std.compare_eq_iff_eq, @eq_comm String s]

theorem mem_insert_iff_of_mem {β : Type} {table : Std.TreeMap String β} {name : String}
    (bound : name ∈ table) (x : β) (s : String) : s ∈ table.insert name x ↔ s ∈ table := by
  rw [Std.TreeMap.mem_insert]
  constructor
  · rintro (same | present)
    · rwa [← Std.compare_eq_iff_eq.mp same]
    · exact present
  · exact .inr

namespace Scope

/-- Layers over variables, from the outermost layer to the innermost. -/
def stack (layers : List Bindings) (vars : Variables) : Scope :=
  layers.foldr overlay (store vars)

@[simp] theorem stack_nil (vars : Variables) : stack [] vars = store vars := rfl

@[simp] theorem stack_cons (layer : Bindings) (layers : List Bindings) (vars : Variables) :
    stack (layer :: layers) vars = overlay layer (stack layers vars) := rfl

theorem isReadOnly_stack (layers : List Bindings) (vars : Variables) :
    (stack layers vars).isReadOnly = false := by
  induction layers with
  | nil => rfl
  | cons layer layers inductionHypothesis => exact inductionHypothesis

end Scope

namespace Variables

/-- The variables, with each name of a layer replaced by a variable that takes every write. Of
several layers the outermost one counts. -/
def flatten (layers : List Bindings) (vars : Variables) : Variables :=
  layers.foldr (fun layer below => below ∪ layer.map fun _ v => { value := v }) vars

theorem getElem?_flatten_cons (layer : Bindings) (layers : List Bindings) (vars : Variables)
    (s : String) : (vars.flatten (layer :: layers))[s]? =
      match layer[s]? with
      | some v => some { value := v }
      | none => (vars.flatten layers)[s]? := by
  change (vars.flatten layers ∪ layer.map fun _ v => { value := v })[s]? = _
  rw [Std.TreeMap.getElem?_union, Std.TreeMap.getElem?_map]
  cases layer[s]? <;> rfl

theorem getElem?_flatten_of_bare {layers : List Bindings} {s : String}
    (bare : ∀ layer ∈ layers, s ∉ layer) (vars : Variables) :
    (vars.flatten layers)[s]? = vars[s]? := by
  induction layers with
  | nil => rfl
  | cons layer layers inductionHypothesis =>
    obtain ⟨missing, bare⟩ := List.forall_mem_cons.mp bare
    rw [getElem?_flatten_cons, Std.TreeMap.getElem?_eq_none missing]
    exact inductionHypothesis bare

end Variables

theorem Scope.get_stack (layers : List Bindings) (vars : Variables) (s : String) :
    (stack layers vars).get s = (vars.flatten layers).get s := by
  induction layers with
  | nil => rfl
  | cons layer layers inductionHypothesis =>
    rw [stack_cons, get, inductionHypothesis, Variables.get, Variables.get,
      Variables.getElem?_flatten_cons]
    cases layer[s]? <;> rfl

/-- A write to a stack goes the way of the write to the flat store: both are refused, or both
bind the name to the same variable. -/
theorem Scope.set_stack (layers : List Bindings) (vars : Variables) (s : String) (v : Value) :
    (∃ refusal, (stack layers vars).set s v = .error refusal ∧
      ∀ flat : Variables, flat[s]? = (vars.flatten layers)[s]? →
        flat.set s v = .error refusal) ∨
    ∃ layers' vars' x, (stack layers vars).set s v = .ok (stack layers' vars') ∧
      (∀ flat : Variables, flat[s]? = (vars.flatten layers)[s]? →
        flat.set s v = .ok (flat.insert s x)) ∧
      ∀ r, (vars'.flatten layers')[r]? = if r = s then some x else (vars.flatten layers)[r]? := by
  induction layers with
  | nil =>
    rcases vars.set_cases s v with ⟨refusal, refused⟩ | ⟨x, _, written⟩
    · refine .inl ⟨refusal, ?_, refused⟩
      rw [stack_nil, set, refused vars rfl, Except.map]
    · refine .inr ⟨[], vars.insert s x, x, ?_, written, fun r => ?_⟩
      · rw [stack_nil, set, written vars rfl, Except.map]
        rfl
      · change (vars.insert s x)[r]? = if r = s then some x else vars[r]?
        rw [getElem?_insert_eq]
  | cons layer layers inductionHypothesis =>
    rw [stack_cons, set]
    cases found : layer[s]? with
    | some old =>
      have bound : layer.contains s = true := by
        rw [Std.TreeMap.contains_eq_isSome_getElem?, found]
        rfl
      refine .inr ⟨layer.insert s v :: layers, vars, { value := v }, ?_, fun flat agrees => ?_,
        fun r => ?_⟩
      · rw [if_pos bound, stack_cons]
      · rw [Variables.getElem?_flatten_cons, found] at agrees
        rw [Variables.set, agrees]
        rfl
      · rw [Variables.getElem?_flatten_cons, Variables.getElem?_flatten_cons, getElem?_insert_eq]
        by_cases same : r = s
        · simp [same]
        · simp [same]
    | none =>
      have free : layer.contains s = false := by
        rw [Std.TreeMap.contains_eq_isSome_getElem?, found]
        rfl
      rw [free, if_neg Bool.false_ne_true]
      have passed : (vars.flatten (layer :: layers))[s]? = (vars.flatten layers)[s]? := by
        rw [Variables.getElem?_flatten_cons, found]
      rw [passed]
      rcases inductionHypothesis with ⟨refusal, refused, flatly⟩ |
        ⟨layers', vars', x, written, flatly, bound⟩
      · refine .inl ⟨refusal, ?_, flatly⟩
        rw [refused, Except.map]
      · refine .inr ⟨layer :: layers', vars', x, ?_, flatly, fun r => ?_⟩
        · rw [written, Except.map, stack_cons]
        · rw [Variables.getElem?_flatten_cons, Variables.getElem?_flatten_cons, bound]
          by_cases same : r = s
          · simp [same, found]
          · simp [same]

namespace World

/-- A stack of layers beside one store that holds its names flat. -/
structure Flattened (u v : World) : Prop where
  scope : ∃ layers vars flat, u.scope = .stack layers vars ∧ v.scope = .store flat ∧
    ∀ s : String, flat[s]? = (vars.flatten layers)[s]?
  heap : u.heap = v.heap
  reads : u.reads = v.reads

theorem flattened_simulation : Simulation Flattened fun _ => False where
  get related s := by
    obtain ⟨layers, vars, flat, scope, scope', agree⟩ := related.scope
    rw [scope, scope', Scope.get_stack, Scope.get, Variables.get, Variables.get, agree]
  heap related := related.heap
  reads related := related.reads
  count related _ := ⟨related.scope, related.heap, rfl⟩
  writes := .inl {
    isReadOnly related := by
      obtain ⟨layers, vars, flat, scope, scope', _⟩ := related.scope
      rw [scope, scope', Scope.isReadOnly_stack]
      exact ⟨rfl, rfl⟩
    setVariable s x u v related := by
      obtain ⟨layers, vars, flat, scope, scope', agree⟩ := related.scope
      rw [setVariable_apply, setVariable_apply, scope, scope', Scope.set]
      rcases Scope.set_stack layers vars s x with ⟨refusal, refused, flatly⟩ |
        ⟨layers', vars', y, written, flatly, bound⟩
      · rw [refused, flatly flat (agree s), Except.map]
        exact .ok _ related
      · rw [written, flatly flat (agree s), Except.map]
        refine .ok _ ⟨⟨layers', vars', _, rfl, rfl, fun r => ?_⟩, related.heap, related.reads⟩
        rw [bound, ← agree, getElem?_insert_eq]
    setHeap related _ := ⟨related.scope, rfl, related.reads⟩ }

end World

/-- Two layers that bind the same names. -/
def Bindings.SameNames (layer layer' : Bindings) : Prop := ∀ s, s ∈ layer' ↔ s ∈ layer

/-- The name is bound alike at every level of the two scopes. -/
inductive Scope.BoundAlike (s : String) : Scope → Scope → Prop
  | store {vars vars' : Variables} (same : vars'[s]? = vars[s]?) :
      BoundAlike s (.store vars) (.store vars')
  | overlay {layer layer' : Bindings} {below below' : Scope} (same : layer'[s]? = layer[s]?)
      (deeper : BoundAlike s below below') : BoundAlike s (.overlay layer below)
        (.overlay layer' below')
  | readOnly {below below' : Scope} (deeper : BoundAlike s below below') :
      BoundAlike s (.readOnly below) (.readOnly below')

/-- What an evaluation may make of a scope. Every level keeps its names, and a name of a layer
stays bound as it was at every level beneath it. -/
inductive Scope.Evolves : Scope → Scope → Prop
  | store {vars vars' : Variables} (names : ∀ s, s ∈ vars' ↔ s ∈ vars) :
      Evolves (.store vars) (.store vars')
  | overlay {layer layer' : Bindings} {below below' : Scope} (names : layer.SameNames layer')
      (deeper : Evolves below below') (hidden : ∀ s ∈ layer, BoundAlike s below below') :
      Evolves (.overlay layer below) (.overlay layer' below')
  | readOnly (below : Scope) : Evolves (.readOnly below) (.readOnly below)

namespace Scope

theorem BoundAlike.refl (s : String) : ∀ scope : Scope, BoundAlike s scope scope
  | .store _ => .store rfl
  | .overlay _ below => .overlay rfl (BoundAlike.refl s below)
  | .readOnly below => .readOnly (BoundAlike.refl s below)

theorem BoundAlike.trans {s : String} {a b c : Scope} (first : BoundAlike s a b)
    (second : BoundAlike s b c) : BoundAlike s a c := by
  induction first generalizing c with
  | store same =>
    obtain ⟨same'⟩ := second
    exact .store (same'.trans same)
  | overlay same _ inductionHypothesis =>
    obtain _ | ⟨same', deeper'⟩ := second
    exact .overlay (same'.trans same) (inductionHypothesis deeper')
  | readOnly _ inductionHypothesis =>
    obtain _ | _ | deeper' := second
    exact .readOnly (inductionHypothesis deeper')

theorem Evolves.refl : ∀ scope : Scope, Evolves scope scope
  | .store _ => .store fun _ => Iff.rfl
  | .overlay _ below => .overlay (fun _ => Iff.rfl) (Evolves.refl below) fun s _ => .refl s below
  | .readOnly below => .readOnly below

theorem Evolves.trans {a b c : Scope} (first : Evolves a b) (second : Evolves b c) :
    Evolves a c := by
  induction first generalizing c with
  | store names =>
    obtain ⟨names'⟩ := second
    exact .store fun s => (names' s).trans (names s)
  | overlay names _ hidden inductionHypothesis =>
    obtain _ | ⟨names', deeper', hidden'⟩ := second
    refine .overlay (fun s => (names' s).trans (names s)) (inductionHypothesis deeper') ?_
    exact fun s bound => (hidden s bound).trans (hidden' s ((names s).mpr bound))
  | readOnly => exact second

theorem Evolves.isReadOnly {a b : Scope} (evolves : Evolves a b) :
    b.isReadOnly = a.isReadOnly := by
  induction evolves with
  | store | readOnly => rfl
  | overlay _ _ _ inductionHypothesis => exact inductionHypothesis

/-- A write changes the topmost binding of its name, and no other name anywhere. -/
theorem boundAlike_set {scope after : Scope} {name : String} {v : Value}
    (written : scope.set name v = .ok after) {s : String} (other : s ≠ name) :
    BoundAlike s scope after := by
  induction scope generalizing after with
  | store vars =>
    rcases vars.set_cases name v with ⟨refusal, refused⟩ | ⟨x, _, bound⟩
    · rw [set, refused vars rfl] at written
      cases written
    · rw [set, bound vars rfl] at written
      cases written
      exact .store (by simp [Std.TreeMap.getElem?_insert, Ne.symm other])
  | overlay layer below inductionHypothesis =>
    rw [set] at written
    split at written
    · cases written
      exact .overlay (by simp [Std.TreeMap.getElem?_insert, Ne.symm other]) (.refl s below)
    · cases result : below.set name v with
      | error refusal =>
        rw [result] at written
        cases written
      | ok below' =>
        rw [result] at written
        cases written
        exact .overlay rfl (inductionHypothesis result)
  | readOnly below => cases written

theorem evolves_set {scope after : Scope} {name : String} {v : Value}
    (written : scope.set name v = .ok after) : Evolves scope after := by
  induction scope generalizing after with
  | store vars =>
    rcases vars.set_cases name v with ⟨refusal, refused⟩ | ⟨x, declared, bound⟩
    · rw [set, refused vars rfl] at written
      cases written
    · rw [set, bound vars rfl] at written
      cases written
      exact .store (mem_insert_iff_of_mem declared x)
  | overlay layer below inductionHypothesis =>
    rw [set] at written
    split at written
    · next bound =>
      cases written
      exact .overlay (mem_insert_iff_of_mem bound v) (.refl below) fun s _ => .refl s below
    · next free =>
      cases result : below.set name v with
      | error refusal =>
        rw [result] at written
        cases written
      | ok below' =>
        rw [result] at written
        cases written
        refine .overlay (fun s => Iff.rfl) (inductionHypothesis result) fun s bound => ?_
        exact boundAlike_set result fun same => free (same ▸ bound)
  | readOnly below => cases written

end Scope

/-- Every evaluation keeps the names of all levels, and what layers hide. -/
theorem World.evolves_law : Law fun u v => u.scope.Evolves v.scope where
  refl w := .refl w.scope
  trans first second := first.trans second
  isReadOnly evolves := evolves.isReadOnly
  provide _ w := .refl w.scope
  setVariable name v w _ := by
    unfold final
    rw [setVariable_apply]
    cases written : w.scope.set name v with
    | ok after => exact Scope.evolves_set written
    | error refusal => exact .refl w.scope
  setMember container key v w _ := by
    change w.scope.Evolves ((setMember container key v).final w).scope
    rw [scope_setMember]
    exact .refl w.scope

namespace Scope

theorem BoundAlike.vars {s : String} {a b : Scope} (alike : BoundAlike s a b) :
    b.vars[s]? = a.vars[s]? := by
  induction alike with
  | store same => exact same
  | overlay _ _ inductionHypothesis | readOnly _ inductionHypothesis => exact inductionHypothesis

theorem vars_stack (layers : List Bindings) (vars : Variables) :
    (stack layers vars).vars = vars := by
  induction layers with
  | nil => rfl
  | cons layer layers inductionHypothesis => exact inductionHypothesis

/-- The name of a topmost layer is hidden from all that happens above. -/
theorem Evolves.beneath {layer : Bindings} {below after : Scope} {s : String}
    (evolves : Evolves (.overlay layer below) after) (bound : s ∈ layer) :
    BoundAlike s below after.beneath := by
  obtain _ | ⟨_, _, hidden⟩ := evolves
  exact hidden s bound

/-- The layers keep their names, and the variables with the name of a layer stay as they were. -/
theorem Evolves.exists_stack {layers : List Bindings} {vars : Variables} {after : Scope}
    (evolves : Evolves (stack layers vars) after) :
    ∃ layers' vars', after = stack layers' vars' ∧
      List.Forall₂ Bindings.SameNames layers layers' ∧
      ∀ s, (∃ layer ∈ layers, s ∈ layer) → vars'[s]? = vars[s]? := by
  induction layers generalizing after with
  | nil =>
    obtain ⟨_⟩ := evolves
    exact ⟨[], _, rfl, .nil, fun s ⟨_, inside, _⟩ => nomatch inside⟩
  | cons layer layers inductionHypothesis =>
    rw [stack_cons] at evolves
    obtain _ | ⟨names, deeper, hidden⟩ := evolves
    obtain ⟨layers', vars', rfl, kept, spared⟩ := inductionHypothesis deeper
    refine ⟨_ :: layers', vars', rfl, .cons names kept, fun s ⟨binder, inside, bound⟩ => ?_⟩
    rcases List.mem_cons.mp inside with rfl | inside
    · have alike := (hidden s bound).vars
      rwa [vars_stack, vars_stack] at alike
    · exact spared s ⟨binder, inside, bound⟩

theorem bare_of_names {layers layers' : List Bindings} {s : String}
    (names : List.Forall₂ Bindings.SameNames layers layers')
    (bare : ∀ layer ∈ layers, s ∉ layer) : ∀ layer ∈ layers', s ∉ layer := by
  induction names with
  | nil => exact bare
  | cons same _ inductionHypothesis =>
    obtain ⟨missing, bare⟩ := List.forall_mem_cons.mp bare
    exact List.forall_mem_cons.mpr ⟨fun bound => missing ((same s).mp bound),
      inductionHypothesis bare⟩

theorem stack_injective {layers layers' : List Bindings} {vars vars' : Variables}
    (same : stack layers vars = stack layers' vars') : layers = layers' ∧ vars = vars' := by
  induction layers generalizing layers' with
  | nil =>
    cases layers' with
    | nil =>
      cases same
      exact ⟨rfl, rfl⟩
    | cons => cases same
  | cons layer layers inductionHypothesis =>
    cases layers' with
    | nil => cases same
    | cons layer' layers' =>
      rw [stack_cons, stack_cons, overlay.injEq] at same
      obtain ⟨rfl, below⟩ := same
      obtain ⟨rfl, rfl⟩ := inductionHypothesis below
      exact ⟨rfl, rfl⟩

end Scope

namespace Eval

variable {α : Type} {R : World → World → Prop} {act : Eval α} {u v : World}

/-- A run that does not give up comes to the same as the other one, in related worlds. -/
theorem Parallel.outcome_eq (parallel : Parallel R (fun _ => False) act) (related : R u v) :
    act.outcome u = act.outcome v := by
  have reached := parallel u v related
  unfold outcome
  generalize act u = x, act v = y at reached
  obtain _ | _ | lost := reached
  · rfl
  · rfl
  · exact lost.elim

theorem Parallel.final (parallel : Parallel R (fun _ => False) act) (related : R u v) :
    R (act.final u) (act.final v) := by
  have reached := parallel u v related
  unfold Eval.final
  generalize act u = x, act v = y at reached
  obtain ⟨_, related⟩ | ⟨_, related⟩ | lost := reached
  · exact related
  · exact related
  · exact lost.elim

end Eval

variable (host : Host)

theorem Expression.evolves_execute (e : Expression) (w : World) :
    w.scope.Evolves ((e.execute host).final w).scope := by
  unfold execute
  split
  · exact .refl w.scope
  · next tree _ =>
    split
    · have same := Eval.sameState_under_readOnly (World.guarded_law.eval host tree) w
      rw [same.1]
      exact .refl w.scope
    · exact World.evolves_law.eval host tree w

/-- For every tree, a stack of overlays over variables behaves as the one store that holds the
names of the layers flat. The evaluations come to the same value or error and leave the same
objects. Then the flat store holds what the stack holds: the variables under the layers agree
with it on every name that no layer binds, and all others are as they were. So an assignment,
which supplies its value in a layer of its own, does not touch that name in any scope. -/
theorem Tree.eval_flattened :
    (∀ (t : Tree) (layers : List Bindings) (vars : Variables) (heap : Heap)
        (counts : Std.TreeMap Nat Nat),
      let u : World := ⟨.stack layers vars, heap, counts⟩
      let v : World := ⟨.store (vars.flatten layers), heap, counts⟩
      (t.eval host).outcome u = (t.eval host).outcome v ∧
      ((t.eval host).final u).heap = ((t.eval host).final v).heap ∧
      ∃ layers' vars' flat, ((t.eval host).final u).scope = .stack layers' vars' ∧
        ((t.eval host).final v).scope = .store flat ∧
        List.Forall₂ Bindings.SameNames layers layers' ∧
        (∀ s : String, flat[s]? = (vars'.flatten layers')[s]?) ∧
        (∀ s, (∀ layer ∈ layers, s ∉ layer) → vars'[s]? = flat[s]?) ∧
        ∀ s, (∃ layer ∈ layers, s ∈ layer) → vars'[s]? = vars[s]?) ∧
    ∀ (a : Assignment) (value : Value) (w : World),
      w.scope.BoundAlike Assignment.valueName ((a.assign host value).final w).scope := by
  constructor
  · intro t layers vars heap counts u v
    have parallel := World.flattened_simulation.eval host t
    have related : u.Flattened v := ⟨⟨layers, vars, _, rfl, rfl, fun _ => rfl⟩, rfl, rfl⟩
    have reached := parallel.final related
    obtain ⟨layers', vars', flat, scope, scope', agree⟩ := reached.scope
    obtain ⟨layers'', vars'', scope'', names, spared⟩ :=
      Scope.Evolves.exists_stack (World.evolves_law.eval host t u)
    obtain ⟨rfl, rfl⟩ := Scope.stack_injective (scope.symm.trans scope'')
    refine ⟨parallel.outcome_eq related, reached.heap, layers', vars', flat, scope, scope', names,
      agree, fun s bare => ?_, spared⟩
    rw [agree, Variables.getElem?_flatten_of_bare (Scope.bare_of_names names bare)]
  · intro a value w
    rw [Assignment.assign, final_under]
    have bound : Assignment.valueName ∈
        (Std.TreeMap.ofList [(Assignment.valueName, value)] : Bindings) := by
      simp
    exact (a.inner.evolves_execute host { w with scope := .overlay _ w.scope }).beneath bound

/-- Two layers hide a variable that takes numbers only. The outer one takes the text. -/
theorem Tree.eval_flattened_of_typed :
    let x : Variables := .ofList [("x", Variable.mk (.int 1) false (some .int))]
    let layers : List Bindings :=
      [.ofList [("x", Value.int 2)], .ofList [("x", Value.int 3)]]
    let t : Tree := .assign default .assign (.name default "x") (.literal default "" (.string "a"))
    let w : World := ⟨.stack layers x, {}, ∅⟩
    (t.eval ⟨[]⟩).outcome w = .ok (.string "a") ∧
      ((t.eval ⟨[]⟩).final w).scope.get "x" = .string "a" ∧
      ∃ layers' vars', ((t.eval ⟨[]⟩).final w).scope = .stack layers' vars' ∧
        vars'["x"]? = some ⟨.int 1, false, some .int⟩ := by
  intro x layers t w
  obtain ⟨_, _, layers', vars', _, scope, _, _, _, _, spared⟩ :=
    (Tree.eval_flattened ⟨[]⟩).1 t layers x {} ∅
  refine ⟨rfl, rfl, layers', vars', scope, ?_⟩
  rw [spared "x" ⟨_, .head _, by decide⟩]
  rfl

end Formulae
