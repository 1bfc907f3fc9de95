import Formulae.Proofs.Evaluation.Target
import Formulae.Proofs.Spelling.Misreading
import Formulae.Proofs.Spelling.Naming

/-!
What a number comes to with a minus sign in front, below members, steps and calls.

Everything but the number itself fails, with the sign and without it.
-/

namespace Formulae

open Eval

namespace Tree

variable {host : Host}

theorem Respelled.text_ne {t u : Tree} (respelled : Respelled true t u) : u.text ≠ t.text := by
  intro same
  have spelled := congrArg String.toList same
  simp only [Tree.text, String.toList_ofList, respelled.chars] at spelled
  have longer := congrArg List.length spelled
  simp at longer

theorem store_of_not_assignable {t : Tree} (isNoPlace : t.isAssignable = false) (target : String)
    (v : Value) (w : World) :
    Eval.store target (t.write host) v w = .error (.unassignable target) w := by
  rw [Eval.store, write_of_not_assignable isNoPlace]
  rfl

/-- The error of a step at a number. -/
def stepError (op : StepOp) (target : String) (v : Value) : EvalError :=
  match Operation.step op v with
  | .ok _ => .unassignable target
  | .error e => e

theorem eval_step_number (m m' : Mark) (op : StepOp) (s : String) (v : Value) (w : World) :
    (step m op (literal m' s v)).eval host w = .error (stepError op (literal m' s v).text v) w := by
  rw [eval]
  apply bind_of_error
  rw [Eval.update, eval, stepError]
  refine (bind_of_ok rfl).trans ?_
  cases Operation.step op v with
  | ok new => rfl
  | error e => rfl

theorem eval_call_number (m m' : Mark) (s : String) {v : Value} (isNumber : v.IsNumber)
    (ts : List Tree) (w : World) : (call m (literal m' s v) ts).eval host w =
      .error (.notCallable (literal m' s v).text v.typeName) w := by
  rw [eval, eval]
  refine (bind_of_ok rfl).trans ?_
  rw [isNumber.asFunction?]
  rfl

theorem member_number {v : Value} (isNumber : v.IsNumber) (key : Value) (w : World) :
    Eval.member v key w = .error (.noMember v.typeName key.text) w := by
  rw [member_apply, isNumber.lookup]
  rfl

theorem stepError_ne {v v' : Value} (opposite : v.Opposite v') (op : StepOp)
    {target target' : String} (differ : target' ≠ target) :
    stepError op target v ≠ stepError op target' v' := by
  intro same
  unfold stepError at same
  cases first : Operation.step op v with
  | ok new =>
    rw [first] at same
    cases second : Operation.step op v' with
    | ok new' =>
      rw [second] at same
      cases same
      exact differ rfl
    | error e =>
      rw [second] at same
      exact Operation.settle_ne _ _ _ target (second.trans (congrArg Except.error same.symm))
  | error e =>
    rw [first] at same
    cases second : Operation.step op v' with
    | ok new' =>
      rw [second] at same
      exact Operation.settle_ne _ _ _ target' (first.trans (congrArg Except.error same))
    | error e' =>
      rcases opposite.exists_step op with ⟨new, stepped⟩ | ⟨new, stepped⟩
      · rw [first] at stepped
        cases stepped
      · rw [second] at stepped
        cases stepped

theorem write_member_ne_none {m : Mark} {t : Tree} {s : Selector} {v : Value} {w w' : World} :
    (member m t s).write host v w ≠ .ok none w' := by
  intro written
  rw [write] at written
  simp only [bind_eq_ok_iff, get_eq_ok_iff] at written
  obtain ⟨_, _, ⟨rfl, rfl⟩, written⟩ := written
  split at written
  · simp at written
  · simp only [bind_eq_ok_iff] at written
    obtain ⟨c, _, _, key, _, _, outcome, _, _, written⟩ := written
    split at written
    · simp at written
    · split at written
      · simp at written
      · simp [map_eq_ok_iff] at written

/-- A member is a place, whatever is wrong with it. -/
theorem store_member_ne {m : Mark} {t : Tree} {s : Selector} {v : Value} {w w' : World}
    {e : EvalError}
    (fails : Eval.store (member m t s).text ((member m t s).write host) v w = .error e w') :
    e ≠ .unassignable (member m t s).text := by
  rintro rfl
  cases written : (member m t s).write host v w with
  | error e v' =>
    rw [Eval.store, bind_of_error written] at fails
    cases fails
    have shorter := refusesWithin_write host _ v _ _ _ written
    rw [length_text] at shorter
    omega
  | ok attempt v' =>
    rw [Eval.store, bind_of_ok written] at fails
    rcases attempt with _ | _ | _
    · exact write_member_ne_none written
    · cases fails
    · cases fails

/-- How a tree with a number at its front and the tree with the sign behave. -/
inductive Joined (host : Host) : Tree → Tree → Prop
  | number {m m' : Mark} {s s' : String} {v v' : Value} (opposite : v.Opposite v') :
      Joined host (literal m s v) (literal m' s' v')
  | failing {t u : Tree} (compound : t.isLiteral = false)
      (places : u.isAssignable = t.isAssignable)
      (fails : ∀ w, Fails (t.eval host) w)
      (alike : Alike (fun w => t.stumbles = true ∨ t.Misled host w) (t.eval host) (u.eval host))
      (refuses : t.isAssignable = true → ∀ new w, ∃ e w',
        Eval.store u.text (u.write host) new w = .error e w' ∧ e ≠ .unassignable u.text) :
      Joined host t u

namespace Joined

variable {t u : Tree} (joined : Joined host t u)

include joined

theorem step (m m' : Mark) (op : StepOp) (spelled : u.text ≠ t.text) :
    Joined host (.step m op t) (.step m' op u) := by
  cases joined with
  | number opposite =>
    refine .failing rfl rfl ?_ ?_ nofun
    · exact fun w => ⟨_, _, eval_step_number ..⟩
    · refine .of_failsApart (fun _ => .inl rfl) fun w => ?_
      exact ⟨_, _, _, _, eval_step_number .., eval_step_number .., stepError_ne opposite op spelled⟩
  | failing compound places fails alike refuses =>
    refine .failing rfl rfl ?_ ?_ nofun
    · intro w
      rw [eval]
      exact ((fails w).bind).bind
    · rw [eval, eval]
      refine ((alike.bind_of_fails fails).bind_of_fails fun w => (fails w).bind).congr fun w => ?_
      rw [stumbles, compound, Bool.false_or, Misled, through_iff_of_fails (fails w)]

theorem refuses_member (m : Mark) (s : Selector) (target : String) (new : Value) (w : World) :
    Fails (Eval.store target ((Tree.member m u s).write host) new) w := by
  refine fails_of_ne_ok fun _ w' stored => ?_
  rw [store_eq_ok_iff, write_member_eq_ok_iff] at stored
  obtain ⟨_, c, v, key, _, reads, _, changed, heap, writes, _⟩ := stored
  cases joined with
  | number opposite =>
    rw [eval, pure_eq_ok_iff] at reads
    obtain ⟨rfl, _⟩ := reads
    rw [opposite.isNumber.2.setMember] at writes
    cases writes
  | failing _ _ fails alike => exact (alike.fails (fails w)).ne_ok reads

theorem member (m m' : Mark) {s s' : Selector}
    (keys : Alike (SelectorMisled host s) (selectorKey host s) (selectorKey host s')) :
    Joined host (.member m t s) (.member m' u s') := by
  have refuses (new : Value) (w : World) : ∃ e w',
      Eval.store (Tree.member m' u s').text ((Tree.member m' u s').write host) new w =
        .error e w' ∧ e ≠ .unassignable (Tree.member m' u s').text := by
    obtain ⟨e, w', fails⟩ := joined.refuses_member m' s' (Tree.member m' u s').text new w
    exact ⟨e, w', fails, store_member_ne fails⟩
  cases joined with
  | @number n n' text text' v v' opposite =>
    obtain ⟨isNumber, isNumber'⟩ := opposite.isNumber
    have looksUp : ∀ key w, Eval.member v key w = Eval.member v' key w := by
      intro key w
      rw [member_number isNumber, member_number isNumber', opposite.typeName]
    refine .failing rfl rfl ?_ ?_ fun _ => refuses
    · intro w
      rw [eval, eval, pure_bind]
      cases reached : selectorKey host s w with
      | ok key w' => exact ⟨_, _, (bind_of_ok reached).trans (member_number isNumber key w')⟩
      | error e w' => exact ⟨_, _, bind_of_error reached⟩
    · have found : Alike (Through (selectorKey host s) (SelectorMisled host s) fun _ => nowhere)
          (selectorKey host s >>= Eval.member v) (selectorKey host s' >>= Eval.member v') :=
        keys.bind fun key _ w => .inr ⟨id, looksUp key w⟩
      rw [eval, eval, eval, eval, pure_bind, pure_bind]
      refine found.congr fun w => ?_
      rw [Misled, eval]
      constructor
      · rintro (misled | ⟨_, _, _, ⟨⟩⟩)
        exact .inr (.inr ⟨v, w, rfl, misled⟩)
      · rintro (stumbles | nowhere | ⟨c, w', succeeds, misled⟩)
        · cases stumbles
        · exact nowhere.elim
        · obtain ⟨_, rfl⟩ := pure_eq_ok_iff.mp succeeds
          exact .inl misled
  | failing compound places fails alike _ =>
    refine .failing rfl rfl ?_ ?_ fun _ => refuses
    · intro w
      rw [eval]
      exact (fails w).bind
    · rw [eval, eval]
      refine (alike.bind_of_fails fails).congr fun w => ?_
      rw [stumbles, Misled, through_iff_of_fails (fails w)]

theorem call (m m' : Mark) (ts us : List Tree) (spelled : u.text ≠ t.text) :
    Joined host (.call m t ts) (.call m' u us) := by
  cases joined with
  | @number n n' text text' v v' opposite =>
    obtain ⟨isNumber, isNumber'⟩ := opposite.isNumber
    refine .failing rfl rfl ?_ ?_ nofun
    · exact fun w => ⟨_, _, eval_call_number _ _ _ isNumber ts w⟩
    · refine .of_failsApart (fun _ => .inl rfl) fun w => ?_
      refine ⟨_, _, _, _, eval_call_number _ _ _ isNumber ts w,
        eval_call_number _ _ _ isNumber' us w, ?_⟩
      intro same
      injection same with same _
      exact spelled same.symm
  | failing compound places fails alike refuses =>
    refine .failing rfl rfl ?_ ?_ nofun
    · intro w
      rw [eval]
      exact (fails w).bind
    · rw [eval, eval]
      refine (alike.bind_of_fails fails).congr fun w => ?_
      rw [stumbles, compound, Bool.false_or, Misled, through_iff_of_fails (fails w)]

end Joined

end Tree

end Formulae
