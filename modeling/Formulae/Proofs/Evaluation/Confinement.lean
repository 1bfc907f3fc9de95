import Formulae.Proofs.Evaluation.Sequence

/-!
Evaluation is confined to the names of a tree.

A tree reads the names it mentions and writes the names at the roots of its targets. Two
runs from variables that agree on the names that are read go the same way, and what they
leave agrees on them again. All variables that are not written stay as they were.
-/

namespace Formulae

namespace Tree

/-- The name under the members of a target. -/
def root? : Tree → Option String
  | name _ s => some s
  | member _ container _ => container.root?
  | _ => none

/-- The name stands in the tree, for the scope to resolve. -/
def Mentions (t : Tree) (s : String) : Prop := ∃ mark, (name mark s).NodeOf t

/-- The name is at the root of a target in the tree. -/
def Targets (t : Tree) (s : String) : Prop :=
  ∃ u target : Tree, u.NodeOf t ∧ u.target? = some target ∧ target.root? = some s

theorem Mentions.of_child {t child : Tree} {s : String} (mentions : child.Mentions s)
    (immediate : child ∈ t.children) : t.Mentions s := by
  obtain ⟨mark, inside⟩ := mentions
  exact ⟨mark, .deeper immediate inside⟩

theorem Targets.of_child {t child : Tree} {s : String} (targets : child.Targets s)
    (immediate : child ∈ t.children) : t.Targets s := by
  obtain ⟨u, target, inside, writes, root⟩ := targets
  exact ⟨u, target, .deeper immediate inside, writes, root⟩

/-- The tree mentions only names of the first kind, and its targets are of the second. -/
structure Confined (reads writes : String → Prop) (t : Tree) : Prop where
  mentions : ∀ s, t.Mentions s → reads s
  targets : ∀ s, t.Targets s → writes s

theorem Confined.child {reads writes : String → Prop} {t child : Tree}
    (confined : t.Confined reads writes) (immediate : child ∈ t.children) :
    child.Confined reads writes where
  mentions s mentions := confined.mentions s (mentions.of_child immediate)
  targets s targets := confined.targets s (targets.of_child immediate)

theorem Confined.root {reads writes : String → Prop} {t target : Tree}
    (confined : t.Confined reads writes) (isTarget : t.target? = some target) {s : String}
    (root : target.root? = some s) : writes s :=
  confined.targets s ⟨t, target, .root t, isTarget, root⟩

end Tree

namespace World

/-- Two worlds with variables that agree on some names, without layers over them, and with
the same objects. -/
structure Agree (names : String → Prop) (u v : World) : Prop where
  isStore : u.scope = .store u.scope.vars
  isStore' : v.scope = .store v.scope.vars
  heap : u.heap = v.heap
  reads : u.reads = v.reads
  vars : ∀ s, names s → u.scope.vars[s]? = v.scope.vars[s]?

/-- Nothing but some variables has been written, and none has been added or removed. -/
structure Spared (names : String → Prop) (u v : World) : Prop where
  vars : ∀ s, ¬ names s → v.scope.vars[s]? = u.scope.vars[s]?
  declared : ∀ s, s ∈ v.scope.vars ↔ s ∈ u.scope.vars

theorem Spared.refl {names : String → Prop} (w : World) : Spared names w w :=
  ⟨fun _ _ => rfl, fun _ => Iff.rfl⟩

theorem Spared.trans {names : String → Prop} {u v w : World} (first : Spared names u v)
    (second : Spared names v w) : Spared names u w where
  vars s other := (second.vars s other).trans (first.vars s other)
  declared s := (second.declared s).trans (first.declared s)

theorem Agree.self {names : String → Prop} {u v : World} (agree : u.Agree names v) :
    v.Agree names v := ⟨agree.isStore', agree.isStore', rfl, rfl, fun _ _ => rfl⟩

theorem Agree.get {names : String → Prop} {u v : World} (agree : u.Agree names v) {s : String}
    (read : names s) : u.scope.get s = v.scope.get s := by
  rw [agree.isStore, agree.isStore', Scope.get, Scope.get, Variables.get, Variables.get,
    agree.vars s read]

theorem Agree.isReadOnly {names : String → Prop} {u v : World} (agree : u.Agree names v) :
    u.scope.isReadOnly = false ∧ v.scope.isReadOnly = false := by
  rw [agree.isStore, agree.isStore']
  exact ⟨rfl, rfl⟩

end World

/-- A write to a variable is refused, or it binds the name anew. It depends on the name only. -/
theorem Variables.set_cases (vars : Variables) (s : String) (v : Value) :
    (∃ refusal, ∀ others : Variables, others[s]? = vars[s]? → others.set s v = .error refusal) ∨
      ∃ x, s ∈ vars ∧ ∀ others : Variables, others[s]? = vars[s]? →
        others.set s v = .ok (others.insert s x) := by
  cases found : vars[s]? with
  | none => exact .inl ⟨.notFound, fun others same => by rw [set, same]⟩
  | some x =>
    cases written : x.write v with
    | error refusal =>
      refine .inl ⟨refusal, fun others same => ?_⟩
      rw [set, same]
      dsimp only
      rw [written, Except.map]
    | ok y =>
      refine .inr ⟨y, Std.TreeMap.mem_iff_isSome_getElem?.mpr (by rw [found]; rfl), ?_⟩
      intro others same
      rw [set, same]
      dsimp only
      rw [written, Except.map]

/-- Two evaluations came to the same, in worlds that agree on some names. -/
inductive World.Abreast {α : Type} (names : String → Prop) :
    EStateM.Result EvalError World α → EStateM.Result EvalError World α → Prop
  | ok {u v : World} (a : α) (agree : u.Agree names v) : Abreast names (.ok a u) (.ok a v)
  | error {u v : World} (e : EvalError) (agree : u.Agree names v) :
      Abreast names (.error e u) (.error e v)

namespace Eval

variable {α β : Type} {reads writes : String → Prop}

/-- What an evaluation comes to, without the world. -/
def outcome (act : Eval α) (w : World) : Except EvalError α :=
  match act w with
  | .ok a _ => .ok a
  | .error e _ => .error e

/-- From worlds that agree on the names that are read the evaluation goes the same way, and it
writes only names that are written. -/
structure Confined (reads writes : String → Prop) (act : Eval α) : Prop where
  abreast : ∀ {u v : World}, u.Agree reads v → World.Abreast reads (act u) (act v)
  spared : ∀ {u : World}, u.Agree reads u → u.Spared writes (act.final u)

theorem setVariable_of_isStore {w : World} (isStore : w.scope = .store w.scope.vars) (s : String)
    (v : Value) : setVariable s v w =
      match w.scope.vars.set s v with
      | .ok vars => .ok (.ok ()) { w with scope := .store vars }
      | .error refusal => .ok (.error refusal) w := by
  obtain ⟨scope, heap, counts⟩ := w
  cases scope with
  | store vars =>
    rw [setVariable_apply, Scope.set, Scope.vars]
    cases vars.set s v <;> rfl
  | overlay | readOnly => cases isStore

namespace Confined

theorem outcome_eq {act : Eval α} (confined : Confined reads writes act) {u v : World}
    (agree : u.Agree reads v) : act.outcome u = act.outcome v := by
  have reached := confined.abreast agree
  unfold outcome
  generalize act u = x, act v = y at reached
  cases reached <;> rfl

theorem agree_final {act : Eval α} (confined : Confined reads writes act) {u v : World}
    (agree : u.Agree reads v) : (act.final u).Agree reads (act.final v) := by
  have reached := confined.abreast agree
  unfold final
  generalize act u = x, act v = y at reached
  cases reached with
  | ok _ agree => exact agree
  | error _ agree => exact agree

/-- What changes no variable and goes the same way. -/
theorem of_vars {act : Eval α}
    (abreast : ∀ {u v : World}, u.Agree reads v → World.Abreast reads (act u) (act v))
    (vars : ∀ u : World, (act.final u).scope = u.scope) : Confined reads writes act where
  abreast := abreast
  spared {u} _ := by
    refine ⟨fun _ _ => ?_, fun _ => ?_⟩
    · rw [vars]
    · rw [vars]

theorem pure (a : α) : Confined reads writes (Pure.pure a) :=
  of_vars (fun agree => .ok a agree) fun _ => rfl

theorem throw (e : EvalError) : Confined reads writes (MonadExcept.throw e : Eval α) :=
  of_vars (fun agree => .error e agree) fun _ => rfl

theorem bind {act : Eval α} {next : α → Eval β} (first : Confined reads writes act)
    (second : ∀ a, Confined reads writes (next a)) : Confined reads writes (act >>= next) where
  abreast {u v} agree := by
    have reached := first.abreast agree
    change World.Abreast reads (EStateM.bind act next u) (EStateM.bind act next v)
    unfold EStateM.bind
    generalize act u = x, act v = y at reached
    cases reached with
    | ok a agree => exact (second a).abreast agree
    | error e agree => exact .error e agree
  spared {u} agree := by
    have spared := first.spared agree
    have reached := first.agree_final agree
    rw [final_bind]
    unfold final at spared reached
    cases ends : act u with
    | ok a w =>
      rw [ends] at spared reached
      exact spared.trans ((second a).spared reached)
    | error e w =>
      rw [ends] at spared
      exact spared

/-- A name that is read, looked up in the scope. -/
theorem get {s : String} (read : reads s) :
    Confined reads writes (do return (← MonadState.get).scope.get s) := by
  refine of_vars (fun {u v} agree => ?_) fun _ => rfl
  change World.Abreast reads (.ok (u.scope.get s) u) (.ok (v.scope.get s) v)
  rw [agree.get read]
  exact .ok _ agree

theorem provide (p : Provider) : Confined reads writes (Eval.provide p) := by
  refine of_vars (fun {u v} agree => ?_) fun _ => rfl
  have moved {w : World} : Eval.provide p w = .ok (p.value (w.reads.getD p.index 0))
    { w with reads := w.reads.insert p.index (w.reads.getD p.index 0 + 1) } := rfl
  rw [moved, moved, agree.reads]
  exact .ok _ ⟨agree.isStore, agree.isStore', agree.heap, rfl, agree.vars⟩

theorem member (container key : Value) : Confined reads writes (Eval.member container key) := by
  refine of_vars (fun {u v} agree => ?_) fun u => by rw [final_member]
  rw [member_apply, member_apply, agree.heap]
  split
  · exact .error _ agree
  · exact .ok _ agree

theorem setMember (container key v : Value) :
    Confined reads writes (Eval.setMember container key v) := by
  refine of_vars (fun {u v} agree => ?_) fun u => ?_
  · rw [setMember_apply, setMember_apply, agree.heap]
    split
    · exact .ok _ ⟨agree.isStore, agree.isStore', rfl, agree.reads, agree.vars⟩
    · exact .ok _ agree
  · unfold final
    rw [setMember_apply]
    cases container.setMember u.heap key v <;> rfl

/-- A name that is read and written, written. -/
theorem setVariable {s : String} (read : reads s) (write : writes s) (v : Value) :
    Confined reads writes (Eval.setVariable s v) where
  abreast {u w} agree := by
    rw [setVariable_of_isStore agree.isStore, setVariable_of_isStore agree.isStore']
    have same := agree.vars s read
    rcases Variables.set_cases u.scope.vars s v with ⟨refusal, refused⟩ | ⟨x, _, written⟩
    · rw [refused _ rfl, refused _ same.symm]
      exact .ok _ agree
    · rw [written _ rfl, written _ same.symm]
      refine .ok _ ⟨rfl, rfl, agree.heap, agree.reads, fun other read => ?_⟩
      simp only [Scope.vars, Std.TreeMap.getElem?_insert, agree.vars other read]
  spared {u} agree := by
    unfold final
    rw [setVariable_of_isStore agree.isStore]
    rcases Variables.set_cases u.scope.vars s v with ⟨refusal, refused⟩ | ⟨x, bound, written⟩
    · rw [refused _ rfl]
      exact .refl u
    · rw [written _ rfl]
      refine ⟨fun other spared => ?_, fun other => ?_⟩
      · have differs : s ≠ other := by
          rintro rfl
          exact spared write
        simp [Scope.vars, Std.TreeMap.getElem?_insert, differs]
      · rw [Scope.vars, Std.TreeMap.mem_insert]
        constructor
        · rintro (same | declared)
          · rwa [← Std.LawfulEqCmp.eq_of_compare same]
          · exact declared
        · exact .inr

/-- A write that is refused in a read-only scope. -/
theorem guarded {act : Eval α} {refused : α} (confined : Confined reads writes act) :
    Confined reads writes
      (do if (← MonadState.get).scope.isReadOnly then return refused else act) := by
  have skipped {w : World} (writable : w.scope.isReadOnly = false) :
      (do if (← MonadState.get).scope.isReadOnly then return refused else act : Eval α) w =
        act w := by
    change (if w.scope.isReadOnly then Pure.pure refused else act : Eval α) w = act w
    rw [writable]
    rfl
  refine ⟨fun agree => ?_, fun agree => ?_⟩
  · rw [skipped agree.isReadOnly.1, skipped agree.isReadOnly.2]
    exact confined.abreast agree
  · unfold final
    rw [skipped agree.isReadOnly.1]
    exact confined.spared agree

theorem sequential : Sequential (Confined reads writes) where
  pure := pure
  throw _ := throw _
  bind := bind
  provide := provide
  member := member

end Confined

end Eval

open Eval

variable {reads writes : String → Prop} (host : Host)

theorem Tree.confined_eval_and_write (t : Tree) : t.Confined reads writes →
    Eval.Confined reads writes (t.eval host) ∧
      ∀ v, (∀ s, t.root? = some s → writes s) → Eval.Confined reads writes (t.write host v) := by
  induction t using Tree.induction_children with
  | step t children =>
    intro confined
    have within (child : Tree) (inside : child ∈ t.children) :=
      children child inside (confined.child inside)
    have values (child : Tree) (inside : child ∈ t.children) := (within child inside).1
    constructor
    · refine Confined.sequential.eval ?_ values fun target isTarget v => ?_
      · rintro mark s rfl
        rw [Tree.eval]
        exact .get (confined.mentions s ⟨mark, .root _⟩)
      · refine Confined.sequential.store ?_ (.throw _)
        exact (within target (mem_children_of_target? isTarget)).2 v fun s =>
          confined.root isTarget
    · intro v root
      refine Confined.sequential.write (.pure none) (fun _ => .guarded) ?_
        (fun container key => .setMember container key v) values ?_
      · rintro mark s rfl
        exact .setVariable (confined.mentions s ⟨mark, .root _⟩) (root s rfl) v
      · rintro _ container _ rfl changed
        exact Confined.sequential.store ((within container (.head _)).2 changed root) (.throw _)

/-- An evaluation is confined to the names of its tree. -/
theorem Tree.Confined.eval (t : Tree) (confined : t.Confined reads writes) :
    Eval.Confined reads writes (t.eval host) := (confined_eval_and_write host t confined).1

/-- What a tree does not mention does not matter to it, and only the roots of its targets are
written. From variables that agree on the names that the tree mentions, with the same objects
and with providers read as often before, an evaluation comes to the same value or error and
leaves the same objects and variables that agree on these names. In each of the two runs all
variables but the roots of targets stay bound as they were, and no name is added or removed. -/
theorem Tree.eval_confined (t : Tree) (a b : Variables) (heap : Heap)
    (counts : Std.TreeMap Nat Nat) (agree : ∀ s, t.Mentions s → a[s]? = b[s]?) :
    let u : World := ⟨.store a, heap, counts⟩
    let v : World := ⟨.store b, heap, counts⟩
    (t.eval host).outcome u = (t.eval host).outcome v ∧
    ((t.eval host).final u).Agree t.Mentions ((t.eval host).final v) ∧
    u.Spared t.Targets ((t.eval host).final u) ∧
    v.Spared t.Targets ((t.eval host).final v) := by
  intro u v
  have confined : Eval.Confined t.Mentions t.Targets (t.eval host) :=
    Tree.Confined.eval host t ⟨fun _ => id, fun _ => id⟩
  have related : u.Agree t.Mentions v := ⟨rfl, rfl, rfl, rfl, agree⟩
  exact ⟨confined.outcome_eq related, confined.agree_final related,
    confined.spared ⟨rfl, rfl, rfl, rfl, fun _ _ => rfl⟩, confined.spared related.self⟩

/-- A third variable, which only one store has, does not matter to an assignment. -/
theorem Tree.eval_confined_of_assignment :
    let declared (v : Value) : Variable := ⟨v, false, none⟩
    let a : Variables := .ofList [("x", declared (.int 0)), ("y", declared (.int 1)),
      ("z", declared (.int 2))]
    let b : Variables := .ofList [("x", declared (.int 0)), ("y", declared (.int 1))]
    let t : Tree := .assign default .assign (.name default "x") (.name default "y")
    let u : World := ⟨.store a, {}, ∅⟩
    let v : World := ⟨.store b, {}, ∅⟩
    (t.eval ⟨[]⟩).outcome u = (t.eval ⟨[]⟩).outcome v ∧
      "z" ∈ ((t.eval ⟨[]⟩).final u).scope.vars ∧ "z" ∉ ((t.eval ⟨[]⟩).final v).scope.vars := by
  intro declared a b t u v
  have agree : ∀ s, t.Mentions s → a[s]? = b[s]? := by
    rintro s ⟨mark, inside⟩
    generalize same : t = root at inside
    cases inside with
    | root => simp [t] at same
    | deeper immediate inside =>
      subst same
      simp only [t, children, List.mem_cons, List.not_mem_nil, or_false] at immediate
      rcases immediate with rfl | rfl
      all_goals
        cases inside with
        | root => rfl
        | deeper immediate => cases immediate
  obtain ⟨same, _, spared, spared'⟩ := Tree.eval_confined ⟨[]⟩ t a b {} ∅ agree
  exact ⟨same, (spared.declared "z").mpr (by decide), fun present =>
    absurd ((spared'.declared "z").mp present) (by decide)⟩

end Formulae
