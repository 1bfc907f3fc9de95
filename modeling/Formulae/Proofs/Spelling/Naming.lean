import Formulae.Proofs.Evaluation.Sequence
import Formulae.Proofs.Spelling.Opening

/-!
The targets that errors name.

An evaluation that refuses a target names a proper part of the text of the tree.
-/

namespace Formulae

namespace Eval

variable {α β : Type}

/-- Targets that are refused have less than `n` characters. -/
def RefusesWithin (n : Nat) (act : Eval α) : Prop :=
  ∀ w s w', act w = .error (.unassignable s) w' → s.length < n

namespace RefusesWithin

variable {m n : Nat} {act : Eval α}

theorem mono (within : RefusesWithin m act) (less : m ≤ n) : RefusesWithin n act :=
  fun w s w' fails => Nat.lt_of_lt_of_le (within w s w' fails) less

theorem of_ok {f : World → α} {g : World → World} (succeeds : ∀ w, act w = .ok (f w) (g w)) :
    RefusesWithin n act := by
  intro w s w' fails
  rw [succeeds] at fails
  cases fails

theorem pure (a : α) : RefusesWithin n (Pure.pure a : Eval α) := of_ok fun _ => rfl

theorem throw {e : EvalError} (other : ∀ s, e = .unassignable s → s.length < n) :
    RefusesWithin n (MonadExcept.throw e : Eval α) := by
  rintro w s w' ⟨⟩
  exact other s rfl

theorem bind {next : α → Eval β} (first : RefusesWithin n act)
    (second : ∀ a, RefusesWithin n (next a)) : RefusesWithin n (act >>= next) := by
  intro w s w' fails
  change EStateM.bind act next w = _ at fails
  rw [EStateM.bind] at fails
  split at fails
  · exact second _ _ _ _ fails
  · next reached =>
    cases fails
    exact first _ _ _ reached

theorem member (container key : Value) : RefusesWithin n (Eval.member container key) := by
  intro w s w' fails
  rw [member_apply] at fails
  split at fails <;> cases fails

theorem setVariable (name : String) (v : Value) : RefusesWithin n (Eval.setVariable name v) := by
  intro w s w' fails
  rw [setVariable_apply] at fails
  split at fails <;> cases fails

theorem setMember (container key v : Value) :
    RefusesWithin n (Eval.setMember container key v) := by
  intro w s w' fails
  rw [setMember_apply] at fails
  split at fails <;> cases fails

theorem provide (p : Provider) : RefusesWithin n (Eval.provide p) := by
  rintro w s w' ⟨⟩

theorem sequential : Sequential (RefusesWithin n) where
  pure := pure
  throw other := throw fun s same => absurd same (other s)
  bind := bind
  provide := provide
  member := member

/-- Storing through a target whose text is shorter than `n`. -/
theorem store {target : String} {write : Value → Eval Attempt} {v : Value}
    (writes : RefusesWithin m (write v)) (less : m ≤ n) (shorter : target.length < n) :
    RefusesWithin n (Eval.store target write v) := by
  refine sequential.store (writes.mono less) (throw ?_)
  rintro _ ⟨⟩
  exact shorter

end RefusesWithin

end Eval

open Eval

namespace Tree

theorem length_text (t : Tree) : t.text.length = t.chars.length := by
  rw [text, String.length_ofList]

theorem length_prepend (symbol operand : List Char) :
    symbol.length + operand.length ≤ (prepend symbol operand).length := by
  obtain ⟨gap, spelled⟩ := prepend_eq symbol operand
  simp [spelled]

@[simp] theorem length_between (left : List Char) (symbol : String) (right : List Char) :
    (between left symbol right).length = left.length + symbol.length + right.length + 2 := by
  simp only [between, List.length_append, List.length_cons, String.length_toList]
  omega

theorem length_argumentChars {t : Tree} {ts : List Tree} (inside : t ∈ ts) :
    t.chars.length ≤ (argumentChars ts).length := by
  induction ts with
  | nil => cases inside
  | cons u ts inductionHypothesis =>
    have longer :
        u.chars.length + (argumentChars ts).length ≤ (argumentChars (u :: ts)).length := by
      cases ts with
      | nil => simp [argumentChars]
      | cons u ts =>
        simp only [argumentChars, List.length_append, List.length_cons]
        omega
    rcases List.mem_cons.mp inside with rfl | inside
    · omega
    · exact Nat.le_trans (inductionHypothesis inside) (by omega)

theorem length_partChars {t : Tree} {ps : List Part} (inside : t ∈ Part.embeds ps) :
    t.chars.length ≤ (partChars ps).length := by
  induction ps with
  | nil => cases inside
  | cons p ps inductionHypothesis =>
    cases p with
    | text s =>
      rw [partChars, List.length_append]
      exact Nat.le_trans (inductionHypothesis inside) (Nat.le_add_left ..)
    | embed u =>
      simp only [partChars, List.cons_append, List.length_cons, List.length_append]
      rcases List.mem_cons.mp inside with rfl | inside
      · omega
      · have shorter := inductionHypothesis inside
        omega

/-- The text of a child is a proper part of the text of the tree. -/
theorem length_child {t child : Tree} (immediate : child ∈ t.children) :
    child.chars.length < t.chars.length := by
  cases t with
  | literal | constant | provided | name => cases immediate
  | group =>
    obtain rfl := List.mem_singleton.mp immediate
    simp only [chars, List.length_append, List.length_cons]
    omega
  | binary | assign =>
    simp only [children, List.mem_cons, List.not_mem_nil, or_false] at immediate
    rw [chars, length_between]
    rcases immediate with rfl | rfl <;> omega
  | choice =>
    simp only [children, List.mem_cons, List.not_mem_nil, or_false] at immediate
    rw [chars, length_between, length_between]
    rcases immediate with rfl | rfl | rfl <;> omega
  | unary _ op operand =>
    obtain rfl := List.mem_singleton.mp immediate
    have longer := length_prepend op.symbol.toList child.chars
    have symbol : 0 < op.symbol.toList.length := by
      cases op with
      | negate | invert => decide
      | step op => cases op <;> decide
    rw [chars]
    omega
  | step _ op operand =>
    obtain rfl := List.mem_singleton.mp immediate
    have symbol : 0 < op.symbol.toList.length := by cases op <;> decide
    rw [chars, List.length_append]
    omega
  | member _ container selector =>
    rw [chars, List.length_append]
    cases selector with
    | named s =>
      obtain rfl := List.mem_singleton.mp immediate
      simp [selectorChars]
    | keyed key =>
      simp only [children, Selector.keys, List.mem_cons, List.not_mem_nil, or_false] at immediate
      simp only [selectorChars, List.length_append, List.length_cons]
      rcases immediate with rfl | rfl <;> omega
  | call _ callee args =>
    simp only [chars, List.length_append, List.length_cons]
    rcases List.mem_cons.mp immediate with rfl | inside
    · omega
    · have shorter := length_argumentChars inside
      omega
  | template _ parts =>
    have shorter := length_partChars immediate
    simp only [chars, List.cons_append, List.length_cons, List.length_append]
    omega

variable (host : Host)

theorem refusesWithin_eval_and_write (t : Tree) : RefusesWithin t.chars.length (t.eval host) ∧
    ∀ v, RefusesWithin t.chars.length (t.write host v) := by
  induction t using Tree.induction_children with
  | step t children =>
    have values (child : Tree) (inside : child ∈ t.children) :=
      (children child inside).1.mono (Nat.le_of_lt (length_child inside))
    -- A child that is refused as a target is a proper part of the text.
    have stores {child : Tree} (inside : child ∈ t.children) (v : Value) :
        RefusesWithin t.chars.length (Eval.store child.text (child.write host) v) := by
      have shorter := length_child inside
      exact ((children child inside).2 v).store (Nat.le_of_lt shorter) (by rwa [length_text])
    constructor
    · refine RefusesWithin.sequential.eval ?_ values fun target isTarget =>
        stores (mem_children_of_target? isTarget)
      rintro _ _ rfl
      exact .of_ok fun _ => rfl
    · intro v
      refine RefusesWithin.sequential.write (.pure none) (fun act within => ?_)
        (fun _ s _ => .setVariable s v) (fun container key => .setMember container key v) values ?_
      · refine .bind (.of_ok fun _ => rfl) fun w => ?_
        split
        · exact .pure _
        · exact within
      · rintro _ container _ rfl
        exact stores (.head _)

theorem refusesWithin_write (t : Tree) (v : Value) :
    RefusesWithin t.chars.length (t.write host v) :=
  (refusesWithin_eval_and_write host t).2 v

end Tree

end Formulae
