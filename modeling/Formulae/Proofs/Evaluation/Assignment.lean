import Mathlib.Data.List.Forall2
import Formulae.Proofs.Evaluation.Target

/-!
Assignments against the reference that evaluates every key once.

A key is settled where evaluating it again has the same value and leaves the state as it
is. Through settled keys a target is read from and written to the slot of the reference.
-/

namespace Formulae

open Eval

namespace Tree

variable {host : Host} {name : String}

/-- Evaluating the selector has this value and leaves the state, whatever was read before. -/
def SettledKey (host : Host) (w : World) (selector : Selector) (k : Value) : Prop :=
  ∀ u, w.SameState u → ∃ u', selectorKey host selector u = .ok k u' ∧ w.SameState u'

/-- Every key of a target is settled. -/
def Settled (host : Host) (w : World) : List Selector → List Value → Prop :=
  List.Forall₂ (SettledKey host w)

theorem Settled.unsnoc {w : World} {sels : List Selector} {selector : Selector} {ks : List Value}
    (settled : Settled host w (sels ++ [selector]) ks) :
    ∃ front k, ks = front ++ [k] ∧ Settled host w sels front ∧ SettledKey host w selector k := by
  induction sels generalizing ks with
  | nil =>
    obtain _ | ⟨key, rest⟩ := settled
    cases rest
    exact ⟨[], _, rfl, .nil, key⟩
  | cons first sels inductionHypothesis =>
    obtain _ | ⟨key, rest⟩ := settled
    obtain ⟨front, k, rfl, settledFront, last⟩ := inductionHypothesis rest
    exact ⟨_ :: front, k, rfl, .cons key settledFront, last⟩

/-- A target that is read evaluates its keys. -/
theorem keys_of_eval {target : Tree} {sels : List Selector} (path : target.Path name sels)
    {w w' : World} {v : Value} (reads : target.eval host w = .ok v w') :
    ∃ ks, keys host sels w = .ok ks w' := by
  induction path generalizing v w' with
  | name =>
    rw [eval, bind_eq_ok_iff] at reads
    obtain ⟨_, _, got, reads⟩ := reads
    obtain ⟨rfl, rfl⟩ := get_eq_ok_iff.mp got
    exact ⟨[], pure_eq_ok_iff.mpr ⟨rfl, (pure_eq_ok_iff.mp reads).2⟩⟩
  | member container inductionHypothesis =>
    obtain ⟨c, u, k, readsContainer, key, _⟩ := eval_member_eq_ok_iff.mp reads
    obtain ⟨front, evaluated⟩ := inductionHypothesis readsContainer
    exact ⟨front ++ [k], keys_append_eq_ok_iff.mpr ⟨front, u, k, evaluated, key, rfl⟩⟩

/-- Through settled keys, a target is read from its slot. -/
theorem eval_of_settled {target : Tree} {sels : List Selector} (path : target.Path name sels)
    {w u u' : World} {ks : List Value} {v : Value} (settled : Settled host w sels ks)
    (same : w.SameState u) (reads : target.eval host u = .ok v u') :
    w.SameState u' ∧ w.slot? name ks = some v := by
  induction path generalizing ks v u' with
  | name =>
    cases settled
    rw [eval, bind_eq_ok_iff] at reads
    obtain ⟨_, _, got, reads⟩ := reads
    obtain ⟨rfl, rfl⟩ := get_eq_ok_iff.mp got
    obtain ⟨rfl, rfl⟩ := pure_eq_ok_iff.mp reads
    exact ⟨same, by rw [World.slot?, same.1, Value.readAt?]⟩
  | member container inductionHypothesis =>
    obtain ⟨front, k, rfl, settledFront, settledKey⟩ := settled.unsnoc
    obtain ⟨c, v', k', readsContainer, key, present⟩ := eval_member_eq_ok_iff.mp reads
    obtain ⟨same', found⟩ := inductionHypothesis settledFront readsContainer
    obtain ⟨u'', key', same''⟩ := settledKey _ same'
    obtain ⟨rfl, rfl⟩ : k' = k ∧ u' = u'' := by simpa [key] using key'
    refine ⟨same'', ?_⟩
    rw [World.slot?] at found ⊢
    rw [Value.readAt?_append, found, Option.bind_some, ← same''.2]
    exact present

/-- What a write to a member comes to, if the container is the one in the slot around it. -/
theorem putSlot?_append_of_setMember {w : World} {ks : List Value} {c k new changed : Value}
    {heap : Heap} (found : w.slot? name ks = some c)
    (stores : c.setMember w.heap k new = .done (changed, heap)) :
    w.putSlot? name (ks ++ [k]) new =
      if changed.isReference then some { w with heap } else w.putSlot? name ks changed := by
  rw [World.slot?] at found
  rw [World.putSlot?, Value.putAt?_append, found, Option.bind_some, Value.replace?, stores]
  by_cases reference : changed.isReference
  · simp [reference]
  · simp [reference, World.putSlot?]

/-- Through settled keys, a write ends in the slot of the target. -/
theorem write_of_settled {target : Tree} {sels : List Selector} (path : target.Path name sels)
    {w u u' : World} {ks : List Value} {v : Value} (settled : Settled host w sels ks)
    (same : w.SameState u) (writes : target.write host v u = .ok (some (.ok ())) u') :
    ∃ w', w.putSlot? name ks v = some w' ∧ w'.SameState u' := by
  induction path generalizing ks v u with
  | name =>
    cases settled
    obtain ⟨_, scope, stores, rfl⟩ := write_name_eq_ok_iff.mp writes
    rw [same.1] at stores
    exact ⟨{ w with scope }, by simp [World.putSlot?, Value.putAt?, stores], rfl, same.2⟩
  | member container inductionHypothesis =>
    obtain ⟨front, k, rfl, settledFront, settledKey⟩ := settled.unsnoc
    obtain ⟨_, c, u₁, k', u₂, readsContainer, key, changed, heap, stores, rest⟩ :=
      write_member_eq_ok_iff.mp writes
    obtain ⟨same₁, found⟩ := eval_of_settled container settledFront same readsContainer
    obtain ⟨u₂', key', same₂⟩ := settledKey _ same₁
    obtain ⟨rfl, rfl⟩ : k' = k ∧ u₂ = u₂' := by simpa [key] using key'
    rw [same₂.2] at stores
    rw [putSlot?_append_of_setMember found stores]
    split at rest
    · next reference =>
      rw [if_pos reference, rest]
      exact ⟨_, rfl, same₂.1, rfl⟩
    · next value =>
      rw [if_neg value]
      have kept : heap = w.heap := Value.heap_of_setMember stores (by simpa using value)
      have same₃ : w.SameState { u₂ with heap } := ⟨same₂.1, kept⟩
      exact inductionHypothesis settledFront same₃ rest

/-- Once the last key of a target is evaluated, the container read before it is still in
its slot, and the keys before it are settled unless that container is a shared object. -/
def Undisturbed (host : Host) (name : String) : Tree → World → Prop
  | member _ container selector, w =>
    ∀ sels ks c u k u', container.Path name sels → container.eval host w = .ok c u →
      keys host sels w = .ok ks u → selectorKey host selector u = .ok k u' →
      u'.slot? name ks = some c ∧ (c.isReference = false → Settled host u' sels ks)
  | _, _ => True

/-- Once the keys of a target are evaluated, the value read along with them is in its
slot, and they are settled once the new value is there. -/
def Repeatable (host : Host) (name : String) (sels : List Selector) (target : Tree)
    (change : Value → Eval Value) (w : World) : Prop :=
  ∀ ks old u, target.eval host w = .ok old u → keys host sels w = .ok ks u →
    u.slot? name ks = some old ∧ ∀ new v, change old u = .ok new v → Settled host v sels ks

/-- The new value of a compound assignment. -/
def combined (host : Host) (op : BinaryOp) (value : Tree) (old : Value) : Eval Value := do
  Eval.ofExcept (Operation.binary op old (← value.eval host))

/-- The new value of a step. -/
def stepped (op : StepOp) (old : Value) : Eval Value :=
  Eval.ofExcept (Operation.step op old)

/-- Where an evaluation succeeds, the reference has the same result and ends in the same
state. -/
def Matches (act reference : Eval Value) (w : World) : Prop :=
  ∀ v w', act w = .ok v w' → ∃ r, reference w = .ok v r ∧ r.SameState w'

theorem write_of_undisturbed {target : Tree} {sels : List Selector} (path : target.Path name sels)
    {w w' : World} {v : Value} (undisturbed : Undisturbed host name target w)
    (writes : target.write host v w = .ok (some (.ok ())) w') :
    ∃ ks u r, keys host sels w = .ok ks u ∧ u.putSlot? name ks v = some r ∧ r.SameState w' := by
  cases path with
  | name =>
    obtain ⟨r, stores, same⟩ := write_of_settled .name .nil (.refl w) writes
    exact ⟨[], w, r, rfl, stores, same⟩
  | member container =>
    obtain ⟨_, c, u₁, k, u₂, readsContainer, key, changed, heap, stores, rest⟩ :=
      write_member_eq_ok_iff.mp writes
    obtain ⟨ks, evaluated⟩ := keys_of_eval container readsContainer
    obtain ⟨found, settled⟩ := undisturbed _ _ _ _ _ _ container readsContainer evaluated key
    have put := putSlot?_append_of_setMember found stores
    have evaluated' := keys_append_eq_ok_iff.mpr ⟨ks, u₁, k, evaluated, key, rfl⟩
    split at rest
    · next reference =>
      rw [if_pos reference] at put
      exact ⟨_, u₂, _, evaluated', put, by rw [rest]; exact .refl _⟩
    · next value =>
      rw [if_neg value] at put
      have kept : heap = u₂.heap := Value.heap_of_setMember stores (by simpa using value)
      subst kept
      have isValue : c.isReference = false := by
        rw [← Value.isReference_of_setMember stores]
        simpa using value
      obtain ⟨r, stored, same⟩ := write_of_settled container (settled isValue) (.refl u₂) rest
      exact ⟨_, u₂, r, evaluated', put.trans stored, same⟩

theorem update_of_repeatable {target : Tree} {sels : List Selector} (path : target.Path name sels)
    {text : String} {change : Value → Eval Value} {w w' : World} {old new : Value}
    (repeatable : Repeatable host name sels target change w)
    (updates : update text (target.eval host) change (target.write host) w = .ok (old, new) w') :
    ∃ r, updateOnce host name sels change w = .ok (old, new) r ∧ r.SameState w' := by
  obtain ⟨u, v, reads, changes, writes⟩ := update_eq_ok_iff.mp updates
  obtain ⟨ks, evaluated⟩ := keys_of_eval path reads
  obtain ⟨found, settled⟩ := repeatable ks old u reads evaluated
  obtain ⟨r, stores, same⟩ := write_of_settled path (settled new v changes) (.refl v) writes
  refine ⟨r, ?_, same⟩
  simp only [updateOnce, bind_eq_ok_iff, readSlot_eq_ok_iff, writeSlot_eq_ok_iff, pure_eq_ok_iff]
  exact ⟨ks, u, evaluated, old, u, ⟨found, rfl⟩, new, v, changes, (), r, stores, rfl, rfl⟩

theorem matches_plain {target value : Tree} {sels : List Selector} (path : target.Path name sels)
    {w : World} (undisturbed : ∀ v u, value.eval host w = .ok v u → Undisturbed host name target u)
    (mark : Mark) :
    Matches ((assign mark .assign target value).eval host)
      (assignOnce host name sels (value.eval host)) w := by
  intro v w' succeeds
  rw [eval] at succeeds
  simp only [AssignOp.combine?, bind_eq_ok_iff, store_eq_ok_iff, pure_eq_ok_iff] at succeeds
  obtain ⟨_, u, valued, _, _, writes, rfl, rfl⟩ := succeeds
  obtain ⟨ks, u', r, evaluated, stores, same⟩ :=
    write_of_undisturbed path (undisturbed v u valued) writes
  refine ⟨r, ?_, same⟩
  simp only [assignOnce, bind_eq_ok_iff, writeSlot_eq_ok_iff, pure_eq_ok_iff]
  exact ⟨_, u, valued, ks, u', evaluated, (), r, stores, rfl, rfl⟩

/-- Compound assignments and steps: an update that gives the new value or the old one. -/
theorem matches_update {target : Tree} {sels : List Selector} (path : target.Path name sels)
    {change : Value → Eval Value} {w : World}
    (repeatable : Repeatable host name sels target change w) (text : String)
    (pick : Value × Value → Value) :
    Matches (do return pick (← update text (target.eval host) change (target.write host)))
      (pick <$> updateOnce host name sels change) w := by
  intro v w' succeeds
  simp only [bind_eq_ok_iff, pure_eq_ok_iff] at succeeds
  obtain ⟨⟨old, new⟩, _, updates, rfl, rfl⟩ := succeeds
  obtain ⟨r, reference, same⟩ := update_of_repeatable path repeatable updates
  exact ⟨r, map_eq_ok_iff.mpr ⟨_, reference, rfl⟩, same⟩

/-- An assignment or a step that succeeds has the result of the reference and ends in the
same state, if the keys that are evaluated again are settled by then and no key moves
what was read around it. -/
theorem assignment_matches_reference {target : Tree} {sels : List Selector}
    (path : target.Path name sels) (mark : Mark) (w : World) :
    (∀ value, (∀ v u, value.eval host w = .ok v u → Undisturbed host name target u) →
      Matches ((assign mark .assign target value).eval host)
        (assignOnce host name sels (value.eval host)) w) ∧
    (∀ op binaryOp value, AssignOp.combine? op = some binaryOp →
      Repeatable host name sels target (combined host binaryOp value) w →
      Matches ((assign mark op target value).eval host)
        (Prod.snd <$> updateOnce host name sels (combined host binaryOp value)) w) ∧
    ∀ op, Repeatable host name sels target (stepped op) w →
      Matches ((unary mark (.step op) target).eval host)
        (Prod.snd <$> updateOnce host name sels (stepped op)) w ∧
      Matches ((step mark op target).eval host)
        (Prod.fst <$> updateOnce host name sels (stepped op)) w := by
  refine ⟨fun value undisturbed => matches_plain path undisturbed mark,
    fun op binaryOp value combines repeatable => ?_, fun op repeatable => ⟨?_, ?_⟩⟩
  · rw [eval]
    simp only [combines]
    exact matches_update path repeatable target.text Prod.snd
  · rw [eval]
    exact matches_update path repeatable target.text Prod.snd
  · rw [eval]
    exact matches_update path repeatable target.text Prod.fst

section Examples

/-- An index, a list and a list of lists. -/
def lists : World :=
  { scope := .store (Std.TreeMap.ofList
      [("i", Variable.mk (.int 0) false none),
        ("xs", Variable.mk (.list [.int 1, .int 2]) false none),
        ("ys", Variable.mk (.list [.list [.int 1], .list [.int 2]]) false none)]) }

/-- The index, and one more of it at each evaluation. -/
def nextIndex : Selector := .keyed (.step default .increment (.name default "i"))

def zero : Tree := .literal default "0" (.int 0)

def five : Tree := .literal default "5" (.int 5)

/-- Adding to an item whose index is a variable. -/
theorem assignment_matches_reference_of_item :
    let index : Selector := .keyed (.name default "i")
    let target : Tree := .member default (.name default "xs") index
    target.Path "xs" [index] ∧
    Repeatable ⟨[]⟩ "xs" [index] target (combined ⟨[]⟩ .add five) lists ∧
    Matches ((assign default .add target five).eval ⟨[]⟩)
      (Prod.snd <$> updateOnce ⟨[]⟩ "xs" [index] (combined ⟨[]⟩ .add five)) lists := by
  intro index target
  have path : target.Path "xs" [index] := .member .name
  have repeatable : Repeatable ⟨[]⟩ "xs" [index] target (combined ⟨[]⟩ .add five) lists := by
    intro ks old u reads evaluated
    cases reads
    cases evaluated
    refine ⟨rfl, fun new v changes => .cons (fun u same => ?_) .nil⟩
    cases changes
    obtain ⟨scope, heap, reads⟩ := u
    obtain ⟨rfl, rfl⟩ : scope = lists.scope ∧ heap = lists.heap := same
    exact ⟨_, rfl, rfl, rfl⟩
  have matched :=
    (assignment_matches_reference path default lists).2.1 .add .add five rfl repeatable
  exact ⟨path, repeatable, matched⟩

theorem not_matches {act reference : Eval Value} {w w' : World} {v : Value} (s : String)
    (succeeds : act w = .ok v w')
    (differs : ((reference.final w).scope.get s).asInt? ≠ (w'.scope.get s).asInt?) :
    ¬ Matches act reference w := by
  intro matched
  obtain ⟨r, runs, same⟩ := matched v w' succeeds
  rw [final, runs, same.1] at differs
  exact differs rfl

/-- Keys with effects of their own are evaluated again for what is written back. -/
theorem keys_evaluated_again :
    let item : Tree := .member default (.name default "xs") nextIndex
    let cell : Tree :=
      .member default (.member default (.name default "ys") nextIndex) (.keyed zero)
    (cell.Path "ys" [nextIndex, .keyed zero] ∧
      ¬ Matches ((assign default .assign cell five).eval ⟨[]⟩)
        (assignOnce ⟨[]⟩ "ys" [nextIndex, .keyed zero] (five.eval ⟨[]⟩)) lists) ∧
    item.Path "xs" [nextIndex] ∧
    ¬ Matches ((assign default .add item five).eval ⟨[]⟩)
      (Prod.snd <$> updateOnce ⟨[]⟩ "xs" [nextIndex] (combined ⟨[]⟩ .add five)) lists ∧
    ¬ Matches ((unary default (.step .increment) item).eval ⟨[]⟩)
      (Prod.snd <$> updateOnce ⟨[]⟩ "xs" [nextIndex] (stepped .increment)) lists ∧
    ¬ Matches ((step default .increment item).eval ⟨[]⟩)
      (Prod.fst <$> updateOnce ⟨[]⟩ "xs" [nextIndex] (stepped .increment)) lists := by
  refine ⟨⟨.member (.member .name), ?_⟩, .member .name, ?_, ?_, ?_⟩
  all_goals
    refine not_matches "i" rfl ?_
    decide +kernel

end Examples

end Tree

end Formulae
