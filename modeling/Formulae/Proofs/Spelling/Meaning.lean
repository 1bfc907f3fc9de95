import Formulae.Proofs.Spelling.Joined

/-!
A tree and what its text reads as come to the same.

They do so from every world, except where the evaluation comes to a sign that misleads:
there both fail, with different errors.
-/

namespace Formulae

open Eval

variable {host : Host}

namespace Tree

theorem isAssignable_of_isFlipped {t : Tree} (flipped : t.isFlipped = true) :
    t.isAssignable = false := by
  unfold isFlipped at flipped
  split at flipped
  · rfl
  · cases flipped

/-- How a tree behaves, and what its text reads as. -/
structure Plain (host : Host) (t u : Tree) : Prop where
  eval : Alike (t.Misled host) (t.eval host) (u.eval host)
  write : t.isFlipped = false → ∀ v, Alike (t.WriteMisled host v) (t.write host v) (u.write host v)
  fails : t.isFlipped = true → ∀ w, Fails (t.eval host) w
  refuses : t.isFlipped = true → ∀ new w, ∃ e w',
    Eval.store u.text (u.write host) new w = .error e w' ∧ e ≠ .unassignable u.text

namespace Plain

variable {t u : Tree}

theorem of_steady (steady : t.isFlipped = false)
    (eval : Alike (t.Misled host) (t.eval host) (u.eval host))
    (write : ∀ v, Alike (t.WriteMisled host v) (t.write host v) (u.write host v)) :
    Plain host t u where
  eval := eval
  write := fun _ => write
  fails := fun flipped => by rw [steady] at flipped; cases flipped
  refuses := fun flipped => by rw [steady] at flipped; cases flipped

theorem alike_write (isNoPlace : t.isAssignable = false) (isNoPlace' : u.isAssignable = false)
    (v : Value) : Alike (t.WriteMisled host v) (t.write host v) (u.write host v) := by
  rw [write_of_not_assignable isNoPlace, write_of_not_assignable isNoPlace']
  cases t with
  | name | member => cases isNoPlace
  | literal | constant | provided | group | unary | binary | assign | step | call | choice
  | template => exact .refl _

theorem of_eval (steady : t.isFlipped = false) (isNoPlace : t.isAssignable = false)
    (isNoPlace' : u.isAssignable = false)
    (eval : Alike (t.Misled host) (t.eval host) (u.eval host)) : Plain host t u :=
  of_steady steady eval (alike_write isNoPlace isNoPlace')

/-- A place that has been read is none that only its text is. -/
theorem store_of_read (plain : Plain host t u) (spelled : u.text = t.text)
    (read : ∃ w, ¬ Fails (t.eval host) w) (v : Value) :
    Alike (t.WriteMisled host v) (Eval.store t.text (t.write host) v)
      (Eval.store u.text (u.write host) v) := by
  rw [spelled]
  refine (plain.write ?_ v).followed _
  cases steady : t.isFlipped with
  | false => rfl
  | true =>
    obtain ⟨w, succeeds⟩ := read
    exact absurd (plain.fails steady w) succeeds

theorem store (plain : Plain host t u) (spelled : u.text = t.text) (v : Value) :
    Alike (fun w => t.isFlipped = true ∨ t.WriteMisled host v w)
      (Eval.store t.text (t.write host) v) (Eval.store u.text (u.write host) v) := by
  cases steady : t.isFlipped with
  | false =>
    rw [spelled]
    refine ((plain.write steady v).followed _).congr fun w => ?_
    simp
  | true =>
    refine .of_failsApart (fun _ => .inl rfl) fun w => ?_
    obtain ⟨e, w', refused, other⟩ := plain.refuses steady v w
    rw [spelled] at other
    have isNoPlace := isAssignable_of_isFlipped steady
    exact ⟨_, w, e, w', store_of_not_assignable isNoPlace t.text v w, refused, other.symm⟩

end Plain

theorem Joined.negate {t u : Tree} (joined : Joined host t u) (opens : t.numeralHead = true)
    (m : Mark) : Plain host (.unary m .negate t) u := by
  cases joined with
  | number opposite =>
    refine .of_eval rfl rfl rfl ?_
    rw [eval, eval, eval, pure_bind, opposite.negate]
    refine (Alike.refl _).congr fun w => ?_
    simp [Misled, misleads, stumbles]
  | failing compound places fails alike refuses =>
    have negationFails : ∀ w, Fails ((unary m .negate t).eval host) w := by
      intro w
      rw [eval]
      exact (fails w).bind
    refine ⟨?_, ?_, fun _ => negationFails, ?_⟩
    · rw [eval]
      refine (alike.bind_left_of_fails fails).congr fun w => ?_
      rw [Misled, misleads, opens, Bool.true_and]
    · intro steady
      rw [isFlipped, opens, Bool.and_true] at steady
      exact Plain.alike_write rfl (places.trans steady)
    · intro flipped
      rw [isFlipped, opens, Bool.and_true] at flipped
      exact refuses flipped

theorem Plain.member {t u : Tree} (m m' : Mark) {s s' : Selector} (plain : Plain host t u)
    (spelled : u.text = t.text)
    (keys : Alike (SelectorMisled host s) (selectorKey host s) (selectorKey host s')) :
    Plain host (.member m t s) (.member m' u s') := by
  refine .of_steady rfl ?_ fun v => ?_
  · rw [Misled, Tree.eval, Tree.eval]
    exact plain.eval.bind fun c _ => keys.followed _
  · rw [WriteMisled, Tree.write, Tree.write]
    refine (Alike.refl get).bind fun world _ => ?_
    split
    · exact .refl _
    · refine plain.eval.bind fun c reached => keys.bind fun key _ => ?_
      refine (Alike.refl (Eval.setMember c key v)).bind fun outcome _ => ?_
      cases outcome with
      | error refusal => exact .refl _
      | ok changed =>
        dsimp only
        split
        · exact .refl _
        · obtain ⟨w, w', succeeds⟩ := reached
          refine (plain.store_of_read spelled ⟨w, ?_⟩ changed).followed _
          exact fun fails => fails.ne_ok succeeds

/-- How a tree and what its text reads as behave, behind a joined sign if `signed`. -/
def Meets (host : Host) (signed : Bool) : Tree → Tree → Prop :=
  if signed then Joined host else Plain host

end Tree

mutual

theorem Tree.Respelled.meets {signed : Bool} {t u : Tree} (respelled : Tree.Respelled signed t u) :
    Tree.Meets host signed t u := by
  match respelled with
  | .literal | .constant | .provided => exact .of_eval rfl rfl rfl (.refl _)
  | .name => exact .of_steady rfl (.refl _) fun _ => .refl _
  | .negated _ opposite => exact .number opposite
  | .group inner =>
    have plain : Tree.Plain host _ _ := inner.meets
    refine .of_eval rfl rfl rfl ?_
    rw [Tree.Misled, Tree.eval, Tree.eval]
    exact plain.eval
  | @Tree.Respelled.unary m m' op t u apart operand =>
    have plain : Tree.Plain host _ _ := operand.meets
    cases op with
    | negate =>
      refine .of_eval ?_ rfl rfl ?_
      · rw [Tree.isFlipped, apart rfl, Bool.and_false]
      · rw [Tree.eval, Tree.eval]
        refine (plain.eval.followed _).congr fun w => ?_
        rw [Tree.Misled, Tree.misleads, apart rfl]
        simp
    | invert =>
      refine .of_eval rfl rfl rfl ?_
      rw [Tree.Misled, Tree.eval, Tree.eval]
      exact plain.eval.followed _
    | step op =>
      refine .of_eval rfl rfl rfl ?_
      rw [Tree.Misled, Tree.eval, Tree.eval]
      refine Alike.followed ?_ _
      exact plain.eval.update (fun _ => .refl _) (plain.store_of_read operand.text)
  | .joined operand => exact operand.meets.negate (operand.numeralHead rfl) _
  | .binary left right =>
    have first : Tree.Plain host _ _ := left.meets
    have second : Tree.Plain host _ _ := right.meets
    refine .of_eval rfl rfl rfl ?_
    rw [Tree.Misled, Tree.eval, Tree.eval]
    exact first.eval.bind fun a _ => second.eval.followed _
  | @Tree.Respelled.assign m m' op t v t' v' target value =>
    have place : Tree.Plain host _ _ := target.meets
    have plain : Tree.Plain host _ _ := value.meets
    refine .of_eval rfl rfl rfl ?_
    rw [Tree.Misled, Tree.eval, Tree.eval]
    cases op with
    | assign =>
      exact plain.eval.bind fun new _ => (place.store target.text new).followed _
    | _ =>
      refine Alike.followed ?_ _
      refine place.eval.update (fun old => ?_) (place.store_of_read target.text)
      exact plain.eval.followed _
  | @Tree.Respelled.step signed m m' op t u operand =>
    have inner := operand.meets
    cases signed with
    | true => exact Tree.Joined.step inner m m' op operand.text_ne
    | false =>
      have plain : Tree.Plain host _ _ := inner
      refine .of_eval rfl rfl rfl ?_
      rw [Tree.Misled, Tree.eval, Tree.eval]
      refine Alike.followed ?_ _
      exact plain.eval.update (fun _ => .refl _) (plain.store_of_read operand.text)
  | @Tree.Respelled.member signed m m' t u s s' container selector =>
    have inner := container.meets
    have keys := selector.alike
    cases signed with
    | true => exact Tree.Joined.member inner m m' keys
    | false => exact Tree.Plain.member m m' inner container.text keys
  | @Tree.Respelled.call signed m m' t u ts us callee args =>
    have inner := callee.meets
    have alike := args.alike
    cases signed with
    | true => exact Tree.Joined.call inner m m' ts us callee.text_ne
    | false =>
      have plain : Tree.Plain host _ _ := inner
      refine .of_eval rfl rfl rfl ?_
      rw [Tree.Misled, Tree.eval, Tree.eval, callee.text]
      refine plain.eval.bind fun f _ => ?_
      cases f.asFunction? with
      | none => exact .refl _
      | some ref => exact alike.followed _
  | .choice condition yes no =>
    have first : Tree.Plain host _ _ := condition.meets
    have second : Tree.Plain host _ _ := yes.meets
    have third : Tree.Plain host _ _ := no.meets
    refine .of_eval rfl rfl rfl ?_
    rw [Tree.Misled, Tree.eval, Tree.eval]
    refine first.eval.bind fun c _ => ?_
    match c.asBool? with
    | some true => exact second.eval
    | some false => exact third.eval
    | none => exact .refl _
  | .template parts =>
    have alike := parts.alike
    refine .of_eval rfl rfl rfl ?_
    rw [Tree.Misled, Tree.eval, Tree.eval]
    exact alike.followed _

theorem Selector.Respelled.alike {s s' : Selector} (respelled : Selector.Respelled s s') :
    Alike (Tree.SelectorMisled host s) (Tree.selectorKey host s) (Tree.selectorKey host s') := by
  match respelled with
  | .named => exact .refl _
  | .keyed key =>
    have plain : Tree.Plain host _ _ := key.meets
    rw [Tree.SelectorMisled, Tree.selectorKey, Tree.selectorKey]
    exact plain.eval

theorem Tree.AllRespelled.alike {ts us : List Tree} (respelled : Tree.AllRespelled ts us) :
    Alike (Tree.AnyMisled host ts) (Tree.evalAll host ts) (Tree.evalAll host us) := by
  match respelled with
  | .nil => exact .refl _
  | .cons first others =>
    have plain : Tree.Plain host _ _ := first.meets
    have alike := others.alike
    rw [Tree.AnyMisled, Tree.evalAll, Tree.evalAll]
    exact plain.eval.bind fun v _ => alike.followed _

theorem Part.AllRespelled.alike {ps qs : List Part} (respelled : Part.AllRespelled ps qs) :
    Alike (Tree.PartMisled host ps) (Tree.evalParts host ps) (Tree.evalParts host qs) := by
  match respelled with
  | .nil => exact .refl _
  | .text others =>
    have alike := others.alike
    rw [Tree.PartMisled, Tree.evalParts, Tree.evalParts]
    exact alike.followed _
  | .embed first others =>
    have plain : Tree.Plain host _ _ := first.meets
    have alike := others.alike
    rw [Tree.PartMisled, Tree.evalParts, Tree.evalParts]
    exact plain.eval.bind fun v _ => alike.followed _

end

end Formulae
