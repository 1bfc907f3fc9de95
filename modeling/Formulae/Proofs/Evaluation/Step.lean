import Formulae.Proofs.Spelling.Alike

/-!
Steps beside compound assignments by one.

A step adds one or minus one. To add minus one is to subtract one, except from text, which the
number is joined to and which nothing is subtracted from: a step down is a compound assignment
that adds minus one, and one that subtracts one unless the target holds text.
-/

namespace Formulae

namespace FloatStep

open Float.Model.UnpackedFloat
open Float.Model (Format UnpackedFloat)

theorem apply_neg (sign : Sign) (n : Int) : (-sign).apply n = -sign.apply n := by
  cases sign with
  | negative => exact (Int.neg_neg n).symm
  | positive => rfl

/-- Only of two finite numbers are the mantissas computed; all other cases agree as they are
written. -/
theorem sub_eq_add_neg (spec : Format) (a b : UnpackedFloat) :
    UnpackedFloat.sub spec a b = UnpackedFloat.add spec a b.neg := by
  cases b with
  | notANumber | infinity | zero => cases a <;> rfl
  | finite sign mantissa exponent positive =>
    cases a with
    | notANumber | infinity | zero => rfl
    | finite =>
      unfold UnpackedFloat.sub UnpackedFloat.neg UnpackedFloat.add
      dsimp only
      rw [apply_neg, Int.sub_eq_add_neg]

/-- Minus one is the negation of one. -/
theorem add_minus_one (x : Float) : x + Float.ofInt (-1) = x - Float.ofInt 1 := by
  have negated : (Float.ofInt (-1)).toModel.unpack = (Float.ofInt 1).toModel.unpack.neg := rfl
  change Float.ofModel (.pack (UnpackedFloat.add _ _ (Float.ofInt (-1)).toModel.unpack)) = _
  rw [negated, ← sub_eq_add_neg]
  rfl

end FloatStep

namespace Value

/-- To add minus one is to subtract one, except from text. -/
theorem add_minus_one {a : Value} (noText : a.asString? = none) :
    a.add (int (-1)) = a.subtract (int 1) := by
  cases a with
  | string s => cases noText
  | int i =>
    have same : Word.add i (-1) = Word.subtract i 1 := by
      change Word.exact (i.toInt + -1) = Word.exact (i.toInt - 1)
      rw [Int.sub_eq_add_neg]
    change orElse ((Word.add i (-1)).map (some ∘ int)) none = _
    rw [same]
    rfl
  | float x =>
    exact congrArg (fun y => (Except.ok (some (float y)) : Answer)) (FloatStep.add_minus_one x)
  | _ => rfl

end Value

namespace Operation

theorem settle_eq_ok_iff {symbol : String} {operands : List Value} {answer : Value.Answer}
    {v : Value} : settle symbol operands answer = .ok v ↔ answer = .ok (some v) := by
  unfold settle
  split <;> simp

/-- A step succeeds with what adding its difference succeeds with. -/
theorem step_eq_ok_iff {op : StepOp} {old v : Value} :
    step op old = .ok v ↔ binary .add old (.int op.delta) = .ok v := by
  rw [step, binary, settle_eq_ok_iff, settle_eq_ok_iff]

theorem step_down_eq_ok_iff {old v : Value} (noText : old.asString? = none) :
    step .decrement old = .ok v ↔ binary .subtract old (.int 1) = .ok v := by
  rw [step, binary, settle_eq_ok_iff, settle_eq_ok_iff, ← Value.add_minus_one noText]
  rfl

end Operation

namespace Eval

variable {α β γ δ : Type}

/-- Both succeed in one world, with related values, or both fail in one world. -/
inductive Together (R : α → β → Prop) :
    EStateM.Result EvalError World α → EStateM.Result EvalError World β → Prop
  | ok {a : α} {b : β} (w : World) (related : R a b) : Together R (.ok a w) (.ok b w)
  | error (e e' : EvalError) (w : World) : Together R (.error e w) (.error e' w)

theorem Together.bind {R : α → β → Prop} {S : γ → δ → Prop} {act : Eval α} {act' : Eval β}
    {next : α → Eval γ} {next' : β → Eval δ} {w : World} (first : Together R (act w) (act' w))
    (second : ∀ a b v, R a b → Together S (next a v) (next' b v)) :
    Together S ((act >>= next) w) ((act' >>= next') w) := by
  change Together S (EStateM.bind act next w) (EStateM.bind act' next' w)
  unfold EStateM.bind
  generalize act w = x, act' w = y at first
  cases first with
  | ok v related => exact second _ _ v related
  | error e e' v => exact .error e e' v

/-- An evaluation goes together with itself. -/
theorem Together.self (x : EStateM.Result EvalError World α) :
    Together (fun a b => a = b ∧ ∃ u, x = .ok a u) x x := by
  cases x with
  | ok a w => exact .ok w ⟨rfl, w, rfl⟩
  | error e w => exact .error e e w

theorem together_ofExcept {x y : Except EvalError α} (same : ∀ a, x = .ok a ↔ y = .ok a)
    (w : World) : Together Eq (ofExcept x w) (ofExcept y w) := by
  cases x with
  | ok a =>
    rw [(same a).mp rfl]
    exact .ok w rfl
  | error e =>
    cases y with
    | ok a => cases (same a).mpr rfl
    | error e' => exact .error e e' w

variable {text : String} {read : Eval Value} {write : Value → Eval Attempt} {w : World}

/-- Updates go together that change what they read together. -/
theorem together_update {change change' : Value → Eval Value}
    (changes : ∀ old u v, read w = .ok old u → Together Eq (change old v) (change' old v)) :
    Together Eq (update text read change write w) (update text read change' write w) := by
  refine (Together.self (read w)).bind fun old old' v ⟨same, u, reads⟩ => ?_
  subst same
  refine (changes old u v reads).bind fun new new' v same => ?_
  subst same
  refine (Together.self (store text write new v)).bind fun _ _ v _ => ?_
  exact .ok v rfl

/-- What an update gives first is what was read. -/
theorem together_update_fst {change : Value → Eval Value} :
    Together (fun (old _ : Value) => ∃ u, read w = .ok old u)
      ((do return (← update text read change write).1) w)
      ((do return (← update text read change write).2) w) := by
  refine (Together.self (update text read change write w)).bind
    fun pair pair' v ⟨same, u, updates⟩ => ?_
  subst same
  obtain ⟨u, _, reads, _⟩ := update_eq_ok_iff.mp updates
  exact .ok v ⟨u, reads⟩

end Eval

open Formulae.Eval

namespace Tree

variable (host : Host) (target : Tree) (mark : Mark) (w : World)

/-- The literal for an integer. -/
def numeral (mark : Mark) (i : Int64) : Tree := .literal mark (toString i) (.int i)

/-- Changes the value of a target, by what is made of the old one. -/
def revise (f : Value → Except EvalError Value) : Eval (Value × Value) :=
  update target.text (target.eval host) (fun old => Eval.ofExcept (f old)) (target.write host)

theorem eval_step_before (op : StepOp) : (unary mark (.step op) target).eval host =
    (do return (← target.revise host (Operation.step op)).2) := by
  rw [eval]
  rfl

theorem eval_step_behind (op : StepOp) : (step mark op target).eval host =
    (do return (← target.revise host (Operation.step op)).1) := by
  rw [eval]
  rfl

theorem eval_assign_numeral {op : AssignOp} {binaryOp : BinaryOp}
    (combines : op.combine? = some binaryOp) (i : Int64) (mark' : Mark) :
    (assign mark op target (numeral mark' i)).eval host =
      (do return (← target.revise host fun old => Operation.binary binaryOp old (.int i)).2) := by
  rw [eval]
  simp only [combines]
  rfl

variable {host target w}

/-- Two revisions of a target come to the same if they do for the values that the target has. -/
theorem together_revise {f g : Value → Except EvalError Value}
    (same : ∀ old u v, target.eval host w = .ok old u → (f old = .ok v ↔ g old = .ok v)) :
    Together Eq ((do return (← target.revise host f).2 : Eval Value) w)
      ((do return (← target.revise host g).2 : Eval Value) w) := by
  have changes : Together Eq (target.revise host f w) (target.revise host g w) :=
    together_update fun old u v reads => together_ofExcept (fun new => same old u new reads) v
  refine changes.bind fun pair pair' v same => ?_
  subst same
  exact .ok v rfl

theorem subtract_fails_of_text {s : String} {u : World}
    (text : target.eval host w = .ok (.string s) u) (mark mark' : Mark) (i : Int64) :
    ∃ e, (assign mark .subtract target (numeral mark' i)).eval host w = .error e u := by
  have revises : ∃ e, target.revise host (fun old => Operation.binary .subtract old (.int i)) w =
      .error e u := ⟨_, (bind_of_ok text).trans (bind_of_error rfl)⟩
  obtain ⟨e, fails⟩ := revises
  rw [eval_assign_numeral _ _ _ rfl]
  exact ⟨e, bind_of_error fails⟩

/-- A step up is the compound assignment that adds one. A step down is the one that subtracts
one, unless the target holds text, which minus one is added to and which nothing is subtracted
from. A step behind its operand differs from the step in front in its value only, which is what
was read. -/
theorem steps_match_assignments (host : Host) (target : Tree) (w : World)
    (mark mark' mark'' : Mark) :
    Together Eq ((unary mark (.step .increment) target).eval host w)
      ((assign mark' .add target (numeral mark'' 1)).eval host w) ∧
    ((∀ s u, target.eval host w ≠ .ok (.string s) u) →
      Together Eq ((unary mark (.step .decrement) target).eval host w)
        ((assign mark' .subtract target (numeral mark'' 1)).eval host w)) ∧
    (∀ s u, target.eval host w = .ok (.string s) u →
      Together Eq ((unary mark (.step .decrement) target).eval host w)
        ((assign mark' .add target (numeral mark'' (-1))).eval host w) ∧
      ∃ e, (assign mark' .subtract target (numeral mark'' 1)).eval host w = .error e u) ∧
    ∀ op, Together (fun (old _ : Value) => ∃ u, target.eval host w = .ok old u)
      ((step mark' op target).eval host w) ((unary mark (.step op) target).eval host w) := by
  refine ⟨?_, fun noText => ?_, fun s u text => ⟨?_, subtract_fails_of_text text mark' mark'' 1⟩,
    fun op => ?_⟩
  · rw [eval_step_before, eval_assign_numeral _ _ _ rfl]
    exact together_revise fun _ _ _ _ => Operation.step_eq_ok_iff
  · rw [eval_step_before, eval_assign_numeral _ _ _ rfl]
    apply together_revise
    intro old u v reads
    apply Operation.step_down_eq_ok_iff
    cases old with
    | string s => exact absurd reads (noText s u)
    | _ => rfl
  · rw [eval_step_before, eval_assign_numeral _ _ _ rfl]
    exact together_revise fun _ _ _ _ => Operation.step_eq_ok_iff
  · rw [eval_step_before, eval_step_behind]
    exact together_update_fst

/-- A number and text. -/
def numberAndText : World :=
  { scope := .store (Std.TreeMap.ofList
      [("n", Variable.mk (.int 3) false none), ("s", Variable.mk (.string "a") false none)]) }

/-- Stepping down from three. -/
theorem steps_match_assignments_of_number :
    let n : Tree := .name default "n"
    (∀ s u, n.eval ⟨[]⟩ numberAndText ≠ .ok (.string s) u) ∧
    (∃ u, (unary default (.step .decrement) n).eval ⟨[]⟩ numberAndText = .ok (.int 2) u) ∧
    Together Eq ((unary default (.step .decrement) n).eval ⟨[]⟩ numberAndText)
      ((assign default .subtract n (numeral default 1)).eval ⟨[]⟩ numberAndText) := by
  intro n
  have noText : ∀ s u, n.eval ⟨[]⟩ numberAndText ≠ .ok (.string s) u := by
    rintro s u ⟨⟩
  have all := steps_match_assignments ⟨[]⟩ n numberAndText default default default
  exact ⟨noText, ⟨_, rfl⟩, all.2.1 noText⟩

/-- Text is stepped down, and one is not subtracted from it. -/
theorem step_down_joins_text :
    let s : Tree := .name default "s"
    ¬ Together Eq ((unary default (.step .decrement) s).eval ⟨[]⟩ numberAndText)
      ((assign default .subtract s (numeral default 1)).eval ⟨[]⟩ numberAndText) := by
  intro s together
  cases together

end Tree

end Formulae
