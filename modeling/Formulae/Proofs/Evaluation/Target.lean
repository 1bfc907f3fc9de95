import Formulae.Proofs.Evaluation.Slot

/-!
Assignment targets and how often their keys are evaluated.

The reference evaluates the keys of a target once and puts the new value into the slot
that these keys lead to. Evaluation itself walks a target anew for each container that it
writes back. The two agree where a key that is evaluated again has the same value and
changes nothing, and where no key changes the containers that are read around it.
-/

namespace Formulae

open Eval

namespace Tree

/-- Targets: a name followed by members. -/
inductive Path : Tree → String → List Selector → Prop
  | name {mark s} : Path (.name mark s) s []
  | member {mark container selector s sels} :
      Path container s sels → Path (.member mark container selector) s (sels ++ [selector])

/-- The values of the keys, each evaluated once, from left to right. -/
def keys (host : Host) : List Selector → Eval (List Value)
  | [] => return []
  | s :: ss => do
    let k ← selectorKey host s
    let ks ← keys host ss
    return k :: ks

section Reference

variable (host : Host) (name : String) (sels : List Selector)

/-- The value in a slot; an error if there is none. -/
def readSlot (ks : List Value) : Eval Value := do
  match (← get).slot? name ks with
  | some v => return v
  | none => throw (.unassignable name)

/-- Puts a value into a slot; an error if the slot does not take it. -/
def writeSlot (ks : List Value) (v : Value) : Eval Unit := do
  match (← get).putSlot? name ks v with
  | some world => set world
  | none => throw (.unassignable name)

/-- Plain assignment: the value, the keys, the write. -/
def assignOnce (value : Eval Value) : Eval Value := do
  let v ← value
  let ks ← keys host sels
  writeSlot name ks v
  return v

/-- Compound assignments and steps: the keys, the read, the new value, the write. -/
def updateOnce (change : Value → Eval Value) : Eval (Value × Value) := do
  let ks ← keys host sels
  let old ← readSlot name ks
  let new ← change old
  writeSlot name ks new
  return (old, new)

end Reference

variable {host : Host}

theorem readSlot_eq_ok_iff {name : String} {ks : List Value} {v : Value} {w w' : World} :
    readSlot name ks w = .ok v w' ↔ w.slot? name ks = some v ∧ w' = w := by
  change (match w.slot? name ks with | some _ => _ | none => _ : Eval Value) w = _ ↔ _
  cases w.slot? name ks with
  | some found => simp [eq_comm]
  | none => simp

theorem writeSlot_eq_ok_iff {name : String} {ks : List Value} {v : Value} {w w' : World}
    {u : Unit} :
    writeSlot name ks v w = .ok u w' ↔ w.putSlot? name ks v = some w' := by
  change (match w.putSlot? name ks v with | some _ => _ | none => _ : Eval Unit) w = _ ↔ _
  cases w.putSlot? name ks v with
  | some world => simp [eq_comm]
  | none => simp

theorem keys_append_eq_ok_iff {sels : List Selector} {selector : Selector} {ks : List Value}
    {w w' : World} :
    keys host (sels ++ [selector]) w = .ok ks w' ↔
      ∃ front u k, keys host sels w = .ok front u ∧ selectorKey host selector u = .ok k w' ∧
        ks = front ++ [k] := by
  induction sels generalizing ks w w' with
  | nil =>
    simp only [List.nil_append, keys, bind_eq_ok_iff, pure_eq_ok_iff]
    constructor
    · rintro ⟨k, u, evaluated, _, _, ⟨rfl, rfl⟩, rfl, rfl⟩
      exact ⟨[], w, k, ⟨rfl, rfl⟩, evaluated, rfl⟩
    · rintro ⟨_, _, k, ⟨rfl, rfl⟩, evaluated, rfl⟩
      exact ⟨k, w', evaluated, _, _, ⟨rfl, rfl⟩, rfl, rfl⟩
  | cons first sels inductionHypothesis =>
    simp only [List.cons_append, keys, bind_eq_ok_iff, pure_eq_ok_iff, inductionHypothesis]
    constructor
    · rintro ⟨a, v, evaluated, _, _, ⟨front, u, k, rest, last, rfl⟩, rfl, rfl⟩
      exact ⟨_, _, k, ⟨a, v, evaluated, front, _, rest, rfl, rfl⟩, last, rfl⟩
    · rintro ⟨_, _, k, ⟨a, v, evaluated, front, u, rest, rfl, rfl⟩, last, rfl⟩
      exact ⟨a, v, evaluated, _, _, ⟨front, _, k, rest, last, rfl⟩, rfl, rfl⟩

theorem eval_member_eq_ok_iff {mark : Mark} {container : Tree} {selector : Selector} {v : Value}
    {w w' : World} :
    (member mark container selector).eval host w = .ok v w' ↔
      ∃ c u k, container.eval host w = .ok c u ∧ selectorKey host selector u = .ok k w' ∧
        c.present? w'.heap k = some v := by
  rw [eval]
  simp only [bind_eq_ok_iff, member_eq_ok_iff, Value.present?]
  constructor
  · rintro ⟨c, u, reads, k, u', key, rfl, present, rfl⟩
    exact ⟨c, u, k, reads, key, by simp [present]⟩
  · rintro ⟨c, u, k, reads, key, present⟩
    refine ⟨c, u, reads, k, w', key, ?_⟩
    split at present
    · cases present
    · next found =>
      cases present
      exact ⟨rfl, by simpa using found, rfl⟩

theorem write_name_eq_ok_iff {mark : Mark} {s : String} {v : Value} {w w' : World} :
    (name mark s).write host v w = .ok (some (.ok ())) w' ↔
      w.scope.isReadOnly = false ∧
        ∃ scope, w.scope.set s v = .ok scope ∧ w' = { w with scope } := by
  rw [write]
  simp only [bind_eq_ok_iff, get_eq_ok_iff]
  constructor
  · rintro ⟨_, _, ⟨rfl, rfl⟩, written⟩
    split at written
    · simp at written
    · next writable =>
      simp only [bind_eq_ok_iff, pure_eq_ok_iff, Option.some.injEq] at written
      obtain ⟨_, _, written, rfl, rfl⟩ := written
      exact ⟨by simpa using writable, setVariable_eq_ok_iff.mp written⟩
  · rintro ⟨writable, written⟩
    refine ⟨_, _, ⟨rfl, rfl⟩, ?_⟩
    rw [if_neg (by simp [writable])]
    exact bind_eq_ok_iff.mpr ⟨_, _, setVariable_eq_ok_iff.mpr written, by simp⟩

theorem write_member_eq_ok_iff {mark : Mark} {container : Tree} {selector : Selector} {v : Value}
    {w w' : World} :
    (member mark container selector).write host v w = .ok (some (.ok ())) w' ↔
      w.scope.isReadOnly = false ∧
      ∃ c u k u', container.eval host w = .ok c u ∧ selectorKey host selector u = .ok k u' ∧
        ∃ changed heap, c.setMember u'.heap k v = .done (changed, heap) ∧
          if changed.isReference then w' = { u' with heap }
          else container.write host changed { u' with heap } = .ok (some (.ok ())) w' := by
  rw [write]
  simp only [bind_eq_ok_iff, get_eq_ok_iff]
  constructor
  · rintro ⟨_, _, ⟨rfl, rfl⟩, written⟩
    split at written
    · simp at written
    · next writable =>
      refine ⟨by simpa using writable, ?_⟩
      simp only [bind_eq_ok_iff] at written
      obtain ⟨c, u, reads, k, u', key, outcome, v', replaced, written⟩ := written
      refine ⟨c, u, k, u', reads, key, ?_⟩
      cases outcome with
      | error refusal => simp at written
      | ok changed =>
        obtain ⟨heap, stores, rfl⟩ := setMember_eq_ok_iff.mp replaced
        refine ⟨changed, heap, stores, ?_⟩
        dsimp only at written
        split at written
        · next reference =>
          rw [if_pos reference]
          exact (pure_eq_ok_iff.mp written).2
        · next value =>
          rw [if_neg value]
          simp only [bind_eq_ok_iff, store_eq_ok_iff, pure_eq_ok_iff] at written
          obtain ⟨_, _, written, _, rfl⟩ := written
          exact written
  · rintro ⟨writable, c, u, k, u', reads, key, changed, heap, stores, written⟩
    refine ⟨_, _, ⟨rfl, rfl⟩, ?_⟩
    rw [if_neg (by simp [writable])]
    simp only [bind_eq_ok_iff]
    refine ⟨c, u, reads, k, u', key, .ok changed, _,
      setMember_eq_ok_iff.mpr ⟨heap, stores, rfl⟩, ?_⟩
    dsimp only
    split at written
    · next reference => rw [if_pos reference, written, pure_eq_ok_iff]; exact ⟨rfl, rfl⟩
    · next value =>
      rw [if_neg value, bind_eq_ok_iff]
      exact ⟨(), w', store_eq_ok_iff.mpr written, by simp⟩

end Tree

end Formulae
