import Formulae.Proofs.Spelling.Alike
import Formulae.Proofs.Spelling.Respelled

/-!
Minus signs that join numbers and change what a tree comes to.

A step or a call fails at a number, and its error shows the number with the sign. A
member of a number is a place that can be written, and its negation is none.
-/

namespace Formulae

open Eval

namespace Tree

def isLiteral : Tree → Bool
  | literal .. => true
  | _ => false

/-- Whether a step or a call meets the literal at the front. -/
def stumbles : Tree → Bool
  | step _ _ t | call _ t _ => t.isLiteral || t.stumbles
  | member _ t _ => t.stumbles
  | _ => false

/-- Whether the tree is no place, and its text reads as one. -/
def isFlipped : Tree → Bool
  | unary _ .negate t => t.isAssignable && t.numeralHead
  | _ => false

/-- Whether a sign that joins a number changes what the tree comes to. -/
def misleads : Tree → Bool
  | unary _ .negate t => t.numeralHead && t.stumbles
  | assign _ .assign target _ => target.isFlipped
  | _ => false

mutual

/-- Whether some subtree misleads. -/
def misread : Tree → Bool
  | literal .. | constant .. | provided .. | name .. => false
  | group _ t | step _ _ t => misread t
  | unary m op t => (unary m op t).misleads || misread t
  | binary _ _ l r => misread l || misread r
  | assign m op t v => (assign m op t v).misleads || misread t || misread v
  | member _ t s => misread t || selectorMisread s
  | call _ t ts => misread t || anyMisread ts
  | choice _ c y n => misread c || misread y || misread n
  | template _ ps => partMisread ps

def selectorMisread : Selector → Bool
  | .named _ => false
  | .keyed t => misread t

def anyMisread : List Tree → Bool
  | [] => false
  | t :: ts => misread t || anyMisread ts

def partMisread : List Part → Bool
  | [] => false
  | .text _ :: ps => partMisread ps
  | .embed t :: ps => misread t || partMisread ps

end

section Misled

variable (host : Host)

mutual

/-- Whether an evaluation comes to a sign that misleads. -/
def Misled : Tree → World → Prop
  | literal .. | constant .. | provided .. | name .. => nowhere
  | group _ inner => Misled inner
  | unary m op operand =>
    match op with
    | .negate => fun w => (unary m .negate operand).misleads = true ∨ Misled operand w
    | .invert => Misled operand
    | .step op => Through (operand.eval host) (Misled operand) fun old =>
        Through (Eval.ofExcept (Operation.step op old)) nowhere fun new =>
          WriteMisled operand new
  | binary _ _ left right => Through (left.eval host) (Misled left) fun _ => Misled right
  | assign m op target value =>
    match op.combine? with
    | none => Through (value.eval host) (Misled value) fun v w =>
        (assign m op target value).misleads = true ∨ WriteMisled target v w
    | some op => Through (target.eval host) (Misled target) fun old =>
        Through (do Eval.ofExcept (Operation.binary op old (← value.eval host))) (Misled value)
          fun new => WriteMisled target new
  | step _ op operand => Through (operand.eval host) (Misled operand) fun old =>
      Through (Eval.ofExcept (Operation.step op old)) nowhere fun new =>
        WriteMisled operand new
  | member _ container selector =>
    Through (container.eval host) (Misled container) fun _ => SelectorMisled selector
  | call _ callee args => Through (callee.eval host) (Misled callee) fun f =>
      match f.asFunction? with
      | none => nowhere
      | some _ => AnyMisled args
  | choice _ condition yes no => Through (condition.eval host) (Misled condition) fun c =>
      match c.asBool? with
      | some true => Misled yes
      | some false => Misled no
      | none => nowhere
  | template _ parts => PartMisled parts

def SelectorMisled : Selector → World → Prop
  | .named _ => nowhere
  | .keyed key => Misled key

def AnyMisled : List Tree → World → Prop
  | [] => nowhere
  | t :: ts => Through (t.eval host) (Misled t) fun _ => AnyMisled ts

def PartMisled : List Part → World → Prop
  | [] => nowhere
  | .text _ :: ps => PartMisled ps
  | .embed t :: ps => Through (t.eval host) (Misled t) fun _ => PartMisled ps

def WriteMisled : Tree → Value → World → Prop
  | member _ container selector, v => Through get nowhere fun world =>
      if world.scope.isReadOnly then nowhere
      else
        Through (container.eval host) (Misled container) fun c =>
          Through (selectorKey host selector) (SelectorMisled selector) fun key =>
            Through (Eval.setMember c key v) nowhere fun
              | .error _ => nowhere
              | .ok changed =>
                if changed.isReference then nowhere
                else WriteMisled container changed
  | _, _ => nowhere

end

end Misled

variable {host : Host}

mutual

theorem not_misled (t : Tree) (clear : t.misread = false) (w : World) : ¬ t.Misled host w := by
  match t with
  | literal .. | constant .. | provided .. | name .. => exact id
  | group _ inner =>
    rw [misread] at clear
    rw [Misled]
    exact not_misled inner clear w
  | unary m op operand =>
    rw [misread, Bool.or_eq_false_iff] at clear
    have operandClear := not_misled operand clear.2
    cases op with
    | negate =>
      rw [Misled]
      rintro (misleads | misled)
      · rw [clear.1] at misleads
        cases misleads
      · exact operandClear w misled
    | invert =>
      rw [Misled]
      exact operandClear w
    | step op =>
      rw [Misled]
      exact not_through operandClear (fun old => not_through (fun _ => id)
        fun new => not_writeMisled operand clear.2 new) w
  | binary _ _ left right =>
    rw [misread, Bool.or_eq_false_iff] at clear
    rw [Misled]
    exact not_through (not_misled left clear.1) (fun _ => not_misled right clear.2) w
  | assign m op target value =>
    rw [misread, Bool.or_eq_false_iff, Bool.or_eq_false_iff] at clear
    have targetClear := not_misled target clear.1.2
    have valueClear := not_misled value clear.2
    have writeClear := not_writeMisled target clear.1.2
    rw [Misled]
    cases op.combine? with
    | none =>
      refine not_through valueClear (fun v w => ?_) w
      rintro (misleads | misled)
      · rw [clear.1.1] at misleads
        cases misleads
      · exact writeClear v w misled
    | some op => exact not_through targetClear (fun old => not_through valueClear writeClear) w
  | step _ op operand =>
    rw [misread] at clear
    rw [Misled]
    exact not_through (not_misled operand clear) (fun old => not_through (fun _ => id)
      fun new => not_writeMisled operand clear new) w
  | member _ container selector =>
    rw [misread, Bool.or_eq_false_iff] at clear
    rw [Misled]
    exact not_through (not_misled container clear.1)
      (fun _ => not_selectorMisled selector clear.2) w
  | call _ callee args =>
    rw [misread, Bool.or_eq_false_iff] at clear
    have argsClear := not_anyMisled args clear.2
    rw [Misled]
    refine not_through (not_misled callee clear.1) (fun f => ?_) w
    cases f.asFunction? with
    | none => exact fun _ => id
    | some ref => exact argsClear
  | choice _ condition yes no =>
    rw [misread, Bool.or_eq_false_iff, Bool.or_eq_false_iff] at clear
    have yesClear := not_misled yes clear.1.2
    have noClear := not_misled no clear.2
    rw [Misled]
    refine not_through (not_misled condition clear.1.1) (fun c => ?_) w
    match c.asBool? with
    | some true => exact yesClear
    | some false => exact noClear
    | none => exact fun _ => id
  | template _ parts =>
    rw [misread] at clear
    rw [Misled]
    exact not_partMisled parts clear w

theorem not_selectorMisled (s : Selector) (clear : selectorMisread s = false) (w : World) :
    ¬ SelectorMisled host s w := by
  match s with
  | .named _ => exact id
  | .keyed key =>
    rw [SelectorMisled]
    exact not_misled key clear w

theorem not_anyMisled (ts : List Tree) (clear : anyMisread ts = false) (w : World) :
    ¬ AnyMisled host ts w := by
  match ts with
  | [] => exact id
  | t :: ts =>
    rw [anyMisread, Bool.or_eq_false_iff] at clear
    rw [AnyMisled]
    exact not_through (not_misled t clear.1) (fun _ => not_anyMisled ts clear.2) w

theorem not_partMisled (ps : List Part) (clear : partMisread ps = false) (w : World) :
    ¬ PartMisled host ps w := by
  match ps with
  | [] => exact id
  | .text _ :: ps =>
    rw [partMisread] at clear
    rw [PartMisled]
    exact not_partMisled ps clear w
  | .embed t :: ps =>
    rw [partMisread, Bool.or_eq_false_iff] at clear
    rw [PartMisled]
    exact not_through (not_misled t clear.1) (fun _ => not_partMisled ps clear.2) w

theorem not_writeMisled (t : Tree) (clear : t.misread = false) (v : Value) (w : World) :
    ¬ t.WriteMisled host v w := by
  match t with
  | member _ container selector =>
    rw [misread, Bool.or_eq_false_iff] at clear
    have containerClear := not_misled container clear.1
    have selectorClear := not_selectorMisled selector clear.2
    have writeClear := not_writeMisled container clear.1
    rw [WriteMisled]
    refine not_through (fun _ => id) (fun world => ?_) w
    split
    · exact fun _ => id
    · refine not_through containerClear fun c => not_through selectorClear fun key => ?_
      refine not_through (fun _ => id) fun outcome => ?_
      split
      · exact fun _ => id
      · next changed =>
        split
        · exact fun _ => id
        · exact writeClear changed
  | literal .. | constant .. | provided .. | name .. | group .. | unary .. | binary .. | assign ..
  | step .. | call .. | choice .. | template .. => exact id

end

theorem write_of_not_assignable {t : Tree} (isNoPlace : t.isAssignable = false) (v : Value) :
    t.write host v = pure none := by
  cases t with
  | name | member => cases isNoPlace
  | literal | constant | provided | group | unary | binary | assign | step | call | choice
  | template => rfl

end Tree

namespace Value

inductive IsNumber : Value → Prop
  | int (i : Int64) : IsNumber (.int i)
  | float (x : Float) : IsNumber (.float x)

namespace IsNumber

variable {v : Value} (isNumber : v.IsNumber)

include isNumber

theorem lookup (heap : Heap) (key : Value) : v.lookup heap key = .empty := by
  have missing : v.member? heap key = none := by
    cases isNumber <;> cases key <;> simp [member?, named?, named?.inOrder, element?]
  rw [Value.lookup, missing]
  rfl

theorem setMember (heap : Heap) (key new : Value) :
    v.setMember heap key new = .refused .notFound (v, heap) := by
  cases isNumber <;> rfl

theorem asFunction? : v.asFunction? = none := by
  cases isNumber <;> rfl

end IsNumber

namespace Opposite

variable {v v' : Value} (opposite : v.Opposite v')

include opposite

theorem isNumber : v.IsNumber ∧ v'.IsNumber := by
  cases opposite with
  | int => exact ⟨.int _, .int _⟩
  | float => exact ⟨.float _, .float _⟩

theorem typeName : v'.typeName = v.typeName := by
  cases opposite <;> rfl

theorem negate : Operation.negate v = .ok v' := by
  cases opposite with
  | int negates =>
    rw [Operation.negate, Value.negate, negates]
    rfl
  | float => rfl

/-- Opposite numbers are not both at the end of their range. -/
theorem exists_step (op : StepOp) :
    (∃ w, Operation.step op v = .ok w) ∨ ∃ w, Operation.step op v' = .ok w := by
  cases opposite with
  | float x => exact .inl ⟨_, rfl⟩
  | @int i j negates =>
    rw [Word.negate, Word.exact_eq_ok_iff] at negates
    have stepped {k : Int64} {l : Int64} (sum : Word.add k op.delta = .ok l) :
        Operation.step op (.int k) = .ok (.int l) := by
      rw [Operation.step, Value.add, numeric, sum]
      rfl
    cases first : Word.add i op.delta with
    | ok k => exact .inl ⟨_, stepped first⟩
    | error fault =>
      cases second : Word.add j op.delta with
      | ok k => exact .inr ⟨_, stepped second⟩
      | error fault' =>
        rw [Word.add, Word.exact_eq_error_iff] at first second
        have delta : op.delta.toInt = 1 ∨ op.delta.toInt = -1 := by
          cases op
          · exact .inl rfl
          · exact .inr rfl
        have above := Int64.toInt_lt i
        have below := Int64.le_toInt i
        have above' := Int64.toInt_lt j
        have below' := Int64.le_toInt j
        have bound : Word.bound = 9223372036854775808 := rfl
        omega

end Opposite

end Value

end Formulae
