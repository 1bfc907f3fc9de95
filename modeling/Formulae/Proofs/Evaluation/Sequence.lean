import Formulae.Proofs.Evaluation.Outcome
import Formulae.Proofs.Tree.Node

/-!
What evaluations in sequence have in common.

A property that a sequence of evaluations has as soon as its steps have it is carried over
from the children of a tree to the tree: `Sequential.eval` says what the evaluation of one node
consists of, and `Sequential.write` says it of a write through one. With
`Tree.induction_children` such a property holds of whole trees.
-/

namespace Formulae

namespace Operation

theorem settle_ne (symbol : String) (operands : List Value) (answer : Value.Answer) (s : String) :
    settle symbol operands answer ≠ .error (.unassignable s) := by
  unfold settle
  split <;> simp [EvalError.inapplicable]

theorem binary_ne (op : BinaryOp) (a b : Value) (s : String) :
    binary op a b ≠ .error (.unassignable s) := by
  cases op with
  | add | subtract | multiply | divide | exponent | modulo => exact settle_ne _ _ _ s
  | and | or =>
    unfold binary logic
    dsimp only
    split <;> simp [EvalError.inapplicable]
  | equal | inequal => simp [binary]
  | less | lessOrEqual | greater | greaterOrEqual =>
    unfold binary order
    dsimp only
    split <;> simp [EvalError.inapplicable]

theorem invert_ne (v : Value) (s : String) : invert v ≠ .error (.unassignable s) := by
  unfold invert
  split <;> simp [EvalError.inapplicable]

end Operation

namespace Tree

/-- What an assignment or a step writes through. -/
def target? : Tree → Option Tree
  | assign _ _ target _ => some target
  | step _ _ operand | unary _ (.step _) operand => some operand
  | _ => none

theorem mem_children_of_target? {t target : Tree} (isTarget : t.target? = some target) :
    target ∈ t.children := by
  unfold target? at isTarget
  split at isTarget <;> cases isTarget <;> exact .head _

end Tree

namespace Eval

/-- A property that a sequence of evaluations has as soon as its steps have it. All errors may be
reported but that a target takes no writes, since that is said of some targets only. -/
structure Sequential (P : ∀ {α : Type}, Eval α → Prop) : Prop where
  pure : ∀ {α : Type} (a : α), P (Pure.pure a)
  throw : ∀ {α : Type} {e : EvalError}, (∀ target, e ≠ .unassignable target) →
    P (MonadExcept.throw e : Eval α)
  bind : ∀ {α β : Type} {act : Eval α} {next : α → Eval β}, P act → (∀ a, P (next a)) →
    P (act >>= next)
  provide : ∀ p, P (Eval.provide p)
  member : ∀ container key, P (Eval.member container key)

namespace Sequential

variable {P : ∀ {α : Type}, Eval α → Prop} (sequential : Sequential P) (host : Host)

include sequential

theorem ofExcept {α : Type} {x : Except EvalError α}
    (other : ∀ target, x ≠ .error (.unassignable target)) : P (Eval.ofExcept x) := by
  cases x with
  | ok a => exact sequential.pure a
  | error e => exact sequential.throw fun target same => other target (congrArg Except.error same)

/-- The error of a target that takes no writes is the only one that names the target. -/
theorem store {target : String} {write : Value → Eval Attempt} {v : Value} (writes : P (write v))
    (unassignable : P (MonadExcept.throw (.unassignable target) : Eval Unit)) :
    P (Eval.store target write v) :=
  sequential.bind writes fun attempt =>
    match attempt with
    | none => unassignable
    | some (.error _) => sequential.throw nofun
    | some (.ok ()) => sequential.pure ()

theorem update {target : String} {read : Eval Value} {change : Value → Eval Value}
    {write : Value → Eval Attempt} (reads : P read) (changes : ∀ v, P (change v))
    (stores : ∀ v, P (Eval.store target write v)) : P (Eval.update target read change write) :=
  sequential.bind reads fun old =>
    sequential.bind (changes old) fun new =>
      sequential.bind (stores new) fun _ => sequential.pure (old, new)

variable {host}

theorem evalAll {ts : List Tree} (values : ∀ t ∈ ts, P (t.eval host)) :
    P (Tree.evalAll host ts) := by
  induction ts with
  | nil => exact sequential.pure []
  | cons t ts inductionHypothesis =>
    rw [List.forall_mem_cons] at values
    rw [Tree.evalAll]
    exact sequential.bind values.1 fun v =>
      sequential.bind (inductionHypothesis values.2) fun vs => sequential.pure (v :: vs)

theorem evalParts {ps : List Part} (values : ∀ t ∈ Part.embeds ps, P (t.eval host)) :
    P (Tree.evalParts host ps) := by
  induction ps with
  | nil => exact sequential.pure ""
  | cons p ps inductionHypothesis =>
    cases p with
    | text s =>
      rw [Tree.evalParts]
      exact sequential.bind (inductionHypothesis values) fun _ => sequential.pure _
    | embed t =>
      obtain ⟨first, others⟩ := List.forall_mem_cons.mp values
      rw [Tree.evalParts]
      exact sequential.bind first fun _ =>
        sequential.bind (inductionHypothesis others) fun _ => sequential.pure _

theorem selectorKey {selector : Selector} (values : ∀ key ∈ selector.keys, P (key.eval host)) :
    P (Tree.selectorKey host selector) := by
  cases selector with
  | named s => exact sequential.pure (Value.string s)
  | keyed key =>
    rw [Tree.selectorKey]
    exact values key (.head _)

/-- What the evaluation of one node consists of: the reading of a name, the evaluation of the
children, and storing through the target. -/
theorem eval {t : Tree} (names : ∀ mark s, t = .name mark s → P (t.eval host))
    (children : ∀ child ∈ t.children, P (child.eval host))
    (stores : ∀ target, t.target? = some target →
      ∀ v, P (Eval.store target.text (target.write host) v)) : P (t.eval host) := by
  cases t with
  | literal | constant => exact sequential.pure _
  | provided _ _ provider => exact sequential.provide provider
  | name mark s => exact names mark s rfl
  | group _ inner =>
    rw [Tree.eval]
    exact children inner (.head _)
  | unary _ op operand =>
    have reads := children operand (.head _)
    cases op with
    | negate =>
      rw [Tree.eval]
      exact sequential.bind reads fun _ => sequential.ofExcept (Operation.settle_ne _ _ _)
    | invert =>
      rw [Tree.eval]
      exact sequential.bind reads fun v => sequential.ofExcept (Operation.invert_ne v)
    | step op =>
      rw [Tree.eval]
      refine sequential.bind (sequential.update reads (fun _ => ?_) (stores operand rfl))
        fun _ => sequential.pure _
      exact sequential.ofExcept (Operation.settle_ne _ _ _)
  | binary _ op left right =>
    rw [Tree.eval]
    exact sequential.bind (children left (.head _)) fun a =>
      sequential.bind (children right (.tail _ (.head _))) fun b =>
        sequential.ofExcept (Operation.binary_ne op a b)
  | assign _ op target value =>
    have reads := children value (.tail _ (.head _))
    have writes := stores target rfl
    rw [Tree.eval]
    split
    · exact sequential.bind reads fun v =>
        sequential.bind (writes v) fun _ => sequential.pure v
    · refine sequential.bind (sequential.update (children target (.head _)) (fun old => ?_) writes)
        fun _ => sequential.pure _
      exact sequential.bind reads fun v => sequential.ofExcept (Operation.binary_ne _ old v)
  | step _ op operand =>
    rw [Tree.eval]
    refine sequential.bind (sequential.update (children operand (.head _)) (fun _ => ?_)
      (stores operand rfl)) fun _ => sequential.pure _
    exact sequential.ofExcept (Operation.settle_ne _ _ _)
  | member _ container selector =>
    rw [Tree.eval]
    exact sequential.bind (children container (.head _)) fun c =>
      sequential.bind (sequential.selectorKey fun key inside => children key (.tail _ inside))
        fun key => sequential.member c key
  | call _ callee args =>
    rw [Tree.eval]
    refine sequential.bind (children callee (.head _)) fun f => ?_
    split
    · exact sequential.throw nofun
    · refine sequential.bind (sequential.evalAll fun t inside => children t (.tail _ inside))
        fun vs => sequential.ofExcept fun target => ?_
      cases host.call _ vs with
      | ok v => nofun
      | error e => nofun
  | choice _ condition yes no =>
    rw [Tree.eval]
    refine sequential.bind (children condition (.head _)) fun c => ?_
    split
    · exact children yes (.tail _ (.head _))
    · exact children no (.tail _ (.tail _ (.head _)))
    · exact sequential.throw nofun
  | template _ parts =>
    rw [Tree.eval]
    exact sequential.bind (sequential.evalParts children) fun _ => sequential.pure _

/-- What a write through one node consists of, where the scope takes writes. A write may have
another property than the evaluations that it consists of. -/
theorem write {Q : Eval Attempt → Prop} {t : Tree} {v : Value} (refuses : Q (Pure.pure none))
    (guarded : ∀ act : Eval Attempt, P act → Q (do
      if (← get).scope.isReadOnly then return some (.error .readOnly)
      act))
    (setVariable : ∀ mark s, t = .name mark s → P (Eval.setVariable s v))
    (setMember : ∀ container key, P (Eval.setMember container key v))
    (children : ∀ child ∈ t.children, P (child.eval host))
    (stores : ∀ mark container selector, t = .member mark container selector →
      ∀ changed, P (Eval.store container.text (container.write host) changed)) :
    Q (t.write host v) := by
  cases t with
  | name mark s =>
    rw [Tree.write]
    exact guarded _ (sequential.bind (setVariable mark s rfl) fun _ => sequential.pure _)
  | member mark container selector =>
    rw [Tree.write]
    refine guarded _ ?_
    refine sequential.bind (children container (.head _)) fun c => ?_
    refine sequential.bind (sequential.selectorKey fun key inside => children key (.tail _ inside))
      fun key => ?_
    refine sequential.bind (setMember c key) fun outcome => ?_
    split
    · exact sequential.pure _
    · next changed =>
      split
      · exact sequential.pure _
      · exact sequential.bind (stores mark container selector rfl changed) fun _ =>
          sequential.pure _
  | _ => exact refuses

end Sequential

end Eval

end Formulae
