import Formulae.Proofs.Grammar.Depth
import Formulae.Proofs.Grammar.Limit
import Formulae.Proofs.Tree.Node

/-!
Parsing without a limit on nesting.

Each level of nesting takes a token of its own, and no tree is higher than its tokens are
many. So a limit beyond the number of the tokens is never met.
-/

namespace Formulae

namespace Parser

/-- No limit is met, and a result is as stated. -/
def Unhindered {α : Type} (Q : α → Prop) : Except ParseError α → Prop
  | .ok a => Q a
  | .error e => ∀ limit, e ≠ .nestingTooDeep limit

/-- A tree that is sized and no deeper than the tokens taken for it are many, of `count`. -/
def Fits (count : Nat) (result : Tree × Cursor) : Prop :=
  result.1.Sized ∧ result.1.depth + result.2.rest.length ≤ count

/-- Trees of which each is sized and no deeper than the tokens taken for them are many. -/
def AllFit (count : Nat) (ts : List Tree) (c : Cursor) : Prop :=
  (∀ t ∈ ts, t.Sized) ∧ greatest (ts.map Tree.depth) + c.rest.length ≤ count

theorem greatest_append (ms ns : List Nat) :
    greatest (ms ++ ns) = max (greatest ms) (greatest ns) := by
  induction ms with
  | nil => simp
  | cons m ms inductionHypothesis => simp [inductionHypothesis, Nat.max_assoc]

theorem Fits.all {count : Nat} {t : Tree} {c c' : Cursor} (fits : Fits count (t, c))
    (fewer : c'.rest.length ≤ c.rest.length) : AllFit count [t] c' := by
  obtain ⟨sized, bound⟩ := fits
  dsimp only at bound
  refine ⟨by simpa using sized, ?_⟩
  simp only [List.map_cons, List.map_nil, greatest_cons, greatest_nil]
  omega

theorem allFit_nil {count : Nat} {c : Cursor} (fewer : c.rest.length ≤ count) :
    AllFit count [] c := by
  refine ⟨by simp, ?_⟩
  rw [List.map_nil, greatest_nil]
  omega

/-- Trees that fit one after the other fit together. -/
theorem AllFit.append {count : Nat} {ts us : List Tree} {c c' : Cursor} (first : AllFit count ts c)
    (second : AllFit c.rest.length us c') : AllFit count (ts ++ us) c' := by
  obtain ⟨sized, bound⟩ := first
  obtain ⟨sized', bound'⟩ := second
  refine ⟨fun t member => ?_, ?_⟩
  · rcases List.mem_append.mp member with member | member
    · exact sized t member
    · exact sized' t member
  · rw [List.map_append, greatest_append]
    omega

theorem Part.embeds_cons (p : Part) (ps : List Part) :
    Part.embeds (p :: ps) = Part.embeds [p] ++ Part.embeds ps := by
  cases p <;> rfl

theorem Cursor.next_lt {symbol : String} {c : Cursor} (isAt : c.isAt symbol = true) :
    c.next.rest.length < c.rest.length := by
  obtain ⟨o, _, rest, _⟩ := Cursor.isAt_iff.mp isAt
  rw [rest]
  exact Nat.lt_succ_self _

theorem Cursor.length_of_following? {d : Dialect} {c : Cursor} {found : Power × FollowingRule}
    (follows : c.following? d = some found) : c.rest.length = c.next.rest.length + 1 := by
  unfold following? at follows
  split at follows
  · next t rest front => simp [next, front]
  · cases follows

namespace Unhindered

variable {α β : Type} {Q R : α → Prop} {S : β → Prop}

theorem bind {x : Except ParseError α} {f : α → Except ParseError β} (first : Unhindered Q x)
    (next : ∀ a, Q a → Unhindered S (f a)) : Unhindered S (x >>= f) := by
  cases x with
  | ok a => exact next a first
  | error e => exact first

theorem mono {x : Except ParseError α} (holds : Unhindered Q x) (weaker : ∀ a, Q a → R a) :
    Unhindered R x := by
  cases x with
  | ok a => exact weaker a holds
  | error e => exact holds

theorem unexpected (c : Cursor) (expected : String) :
    Unhindered Q (.error (c.unexpected expected)) := by
  intro limit
  unfold Cursor.unexpected
  split <;> simp

theorem demand (symbol : String) (c : Cursor) :
    Unhindered (fun c' => c'.rest.length < c.rest.length) (Parser.demand symbol c) := by
  unfold Parser.demand
  split
  · next isAt => exact Cursor.next_lt isAt
  · exact unexpected _ _

theorem identifier (c : Cursor) :
    Unhindered (fun result => result.2.rest.length < c.rest.length) (Parser.identifier c) := by
  unfold Parser.identifier
  split
  · next t rest front =>
    split
    · change rest.length < c.rest.length
      rw [front]
      exact Nat.lt_succ_self _
    · exact unexpected _ _
  · intro _ same
    cases same

end Unhindered

/-- Where fewer tokens are left than there is room, expressions are read without a limit. -/
def Roomy (room : Nat) (inner : Nat → Step Tree) : Prop :=
  ∀ min c, c.rest.length < room → Unhindered (Fits c.rest.length) (inner min c)

/-- A tree that is made over what fits in the tokens behind its first one. -/
theorem unhindered_limited {limit count : Nat} {t : Tree} {span : Span} {c : Cursor}
    (made : t.mark = .over span t.children) (fits : AllFit count t.children c)
    (within : count < limit) :
    Unhindered (fun u => Fits (count + 1) (u, c)) (limited limit t) := by
  have depth : t.depth = 1 + greatest (t.children.map Tree.depth) := by
    rw [Tree.depth, made, Tree.depth_over]
  obtain ⟨sized, bound⟩ := fits
  rw [limited, if_neg (by omega)]
  refine ⟨Tree.sized_of_over made sized, ?_⟩
  dsimp only
  omega

theorem unhindered_node {limit count : Nat} {t : Tree} {span : Span} {c : Cursor}
    (made : t.mark = .over span t.children) (fits : AllFit count t.children c)
    (within : count < limit) :
    Unhindered (Fits (count + 1)) (do let tree ← limited limit t; return (tree, c)) :=
  (unhindered_limited made fits within).bind fun _ fits => fits

section Rules

variable {d : Dialect} {room limit : Nat} {inner : Nat → Step Tree} (roomy : Roomy room inner)

include roomy

theorem unhindered_part {c : Cursor} (left : c.rest.length ≤ room) :
    Unhindered (fun result => AllFit c.rest.length (Part.embeds [result.1]) result.2)
      (part inner c) := by
  unfold part
  split
  · intro _ same
    cases same
  · next t rest front =>
    have next : c.next.rest.length + 1 = c.rest.length := by simp [Cursor.next, front]
    split
    · have fewer : c.next.rest.length ≤ c.rest.length := by omega
      exact allFit_nil fewer
    · split
      · refine (roomy _ _ (by omega)).bind ?_
        rintro ⟨tree, c₁⟩ fits
        refine (Unhindered.demand _ _).bind fun c₂ taken => ?_
        have all := fits.all (Nat.le_of_lt taken)
        exact ⟨all.1, Nat.le_trans all.2 (by omega)⟩
      · exact Unhindered.unexpected _ _
    · exact Unhindered.unexpected _ _

theorem unhindered_parts (bound : Nat) {c : Cursor} (left : c.rest.length ≤ room) :
    Unhindered (fun result => AllFit c.rest.length (Part.embeds result.1) result.2)
      (parts inner bound c) := by
  have close {c : Cursor} (isAt : c.isAt "\x60" = true) : AllFit c.rest.length [] c.next :=
    allFit_nil (Nat.le_of_lt (Cursor.next_lt isAt))
  induction bound generalizing c with
  | zero =>
    unfold parts
    split
    · next isAt => exact close isAt
    · intro _ same
      cases same
  | succ bound inductionHypothesis =>
    unfold parts
    split
    · next isAt => exact close isAt
    · refine (unhindered_part roomy left).bind ?_
      rintro ⟨p, c₁⟩ first
      have fewer : c₁.rest.length ≤ c.rest.length := Nat.le_trans (Nat.le_add_left ..) first.2
      refine (inductionHypothesis (Nat.le_trans fewer left)).bind ?_
      rintro ⟨ps, c₂⟩ others
      change AllFit c.rest.length (Part.embeds (p :: ps)) c₂
      rw [Part.embeds_cons]
      exact first.append others

theorem unhindered_arguments (bound : Nat) {c : Cursor} (left : c.rest.length < room) :
    Unhindered (fun result => AllFit c.rest.length result.1 result.2)
      (arguments inner bound c) := by
  have last {c c₁ : Cursor} {t : Tree} (fits : Fits c.rest.length (t, c₁)) :
      Unhindered (fun result => AllFit c.rest.length result.1 result.2)
        (do let c ← demand ")" c₁; return ([t], c)) :=
    (Unhindered.demand ")" c₁).bind fun c₂ taken => fits.all (Nat.le_of_lt taken)
  induction bound generalizing c with
  | zero =>
    unfold arguments
    refine (roomy _ _ left).bind ?_
    rintro ⟨t, c₁⟩ fits
    dsimp only
    split
    · intro _ same
      cases same
    · exact last fits
  | succ bound inductionHypothesis =>
    unfold arguments
    refine (roomy _ _ left).bind ?_
    rintro ⟨t, c₁⟩ fits
    dsimp only
    split
    · next isAt =>
      have all := fits.all (Nat.le_of_lt (Cursor.next_lt isAt))
      have fewer : c₁.next.rest.length ≤ c.rest.length := Nat.le_trans (Nat.le_add_left ..) all.2
      refine (inductionHypothesis (by omega)).bind ?_
      rintro ⟨ts, c₂⟩ others
      exact all.append others
    · exact last fits

/-- What an opening operator starts, the operator included. -/
theorem unhindered_opened (start : Span) (rule : OpeningRule) {c : Cursor}
    (left : c.rest.length < room) (within : room ≤ limit) :
    Unhindered (Fits (c.rest.length + 1)) (opened limit inner start rule c) := by
  cases rule with
  | group =>
    refine (roomy _ _ left).bind ?_
    rintro ⟨t, c₁⟩ fits
    refine (Unhindered.demand _ _).bind fun c₂ taken => ?_
    exact unhindered_node rfl (fits.all (Nat.le_of_lt taken)) (by omega)
  | template =>
    refine (unhindered_parts roomy _ (Nat.le_of_lt left)).bind ?_
    rintro ⟨ps, c₁⟩ fit
    exact unhindered_node rfl fit (by omega)
  | unary op =>
    refine (roomy _ _ left).bind ?_
    rintro ⟨t, c₁⟩ fits
    exact unhindered_node rfl (fits.all (Nat.le_refl _)) (by omega)

theorem unhindered_operand {c : Cursor} (left : c.rest.length ≤ room) (within : room ≤ limit) :
    Unhindered (Fits c.rest.length) (operand d limit inner c) := by
  unfold operand
  split
  · intro _ same
    cases same
  · next t rest front =>
    have next : c.rest.length = c.next.rest.length + 1 := by simp [Cursor.next, front]
    have leaf {u : Tree} (made : u.mark = .over t.span []) (childless : u.children = []) :
        Fits c.rest.length (u, c.next) := by
      refine ⟨Tree.sized_of_over (by rw [made, childless]) (by simp [childless]), ?_⟩
      have depth : u.depth = 1 := by rw [Tree.depth, made, Mark.over, List.map_nil, greatest_nil]
      dsimp only
      omega
    split
    · exact leaf rfl rfl
    · refine leaf ?_ ?_
      all_goals
        unfold resolve
        dsimp only
        split
        · rfl
        · split <;> rfl
    · split
      · rw [next]
        exact unhindered_opened roomy _ _ (by omega) within
      · intro _ same
        cases same
    · intro _ same
      cases same

/-- What an operator makes of the tree in front of it, the operator included. -/
theorem unhindered_followed {left : Tree} (power : Power) (rule : FollowingRule) {count : Nat}
    {c : Cursor} (fits : Fits count (left, c)) (behind : c.rest.length < room)
    (within : count < limit) :
    Unhindered (Fits (count + 1)) (followed limit inner left power rule c) := by
  have first : AllFit count [left] c := fits.all (Nat.le_refl _)
  cases rule with
  | binary op | assign op =>
    refine (roomy _ _ behind).bind ?_
    rintro ⟨right, c₁⟩ second
    exact unhindered_node rfl (first.append (second.all (Nat.le_refl _))) within
  | step op => exact unhindered_node rfl first within
  | access =>
    refine (Unhindered.identifier _).bind ?_
    rintro ⟨s, c₁⟩ taken
    exact unhindered_node rfl (fits.all (Nat.le_of_lt taken)) within
  | lookup =>
    refine (roomy _ _ behind).bind ?_
    rintro ⟨key, c₁⟩ second
    refine (Unhindered.demand _ _).bind fun c₂ taken => ?_
    exact unhindered_node rfl (first.append (second.all (Nat.le_of_lt taken))) within
  | call =>
    rw [followed]
    split
    · next isAt =>
      have others : AllFit c.rest.length [] c.next :=
        allFit_nil (Nat.le_of_lt (Cursor.next_lt isAt))
      exact unhindered_node rfl (first.append others) within
    · refine (unhindered_arguments roomy _ behind).bind ?_
      rintro ⟨args, c₁⟩ others
      exact unhindered_node rfl (first.append others) within
  | choice =>
    refine (roomy _ _ behind).bind ?_
    rintro ⟨yes, c₁⟩ second
    refine (Unhindered.demand _ _).bind fun c₂ taken => ?_
    have both := first.append (second.all (Nat.le_of_lt taken))
    have fewer : c₁.rest.length ≤ c.rest.length := Nat.le_trans (Nat.le_add_left ..) second.2
    refine (roomy _ _ (by omega)).bind ?_
    rintro ⟨no, c₃⟩ third
    exact unhindered_node rfl (both.append (third.all (Nat.le_refl _))) within

theorem unhindered_chain (min bound : Nat) {left : Tree} {count : Nat} {c : Cursor}
    (fits : Fits count (left, c)) (enough : count ≤ room) (within : room ≤ limit) :
    Unhindered (Fits count) (chain d limit inner min bound left c) := by
  induction bound generalizing left c with
  | zero =>
    unfold chain
    split
    · exact fits
    · split <;> exact fits
  | succ bound inductionHypothesis =>
    unfold chain
    split
    · exact fits
    · next power rule found =>
      split
      · exact fits
      · have next : c.rest.length = c.next.rest.length + 1 := Cursor.length_of_following? found
        -- The token of the operator makes up for the level that it adds.
        obtain ⟨sized, bounded⟩ := fits
        obtain ⟨count, rfl⟩ : ∃ n, count = n + 1 := ⟨count - 1, by dsimp only at bounded; omega⟩
        have positive := sized.depth_pos
        dsimp only at bounded
        have fits' : Fits count (left, c.next) := ⟨sized, by dsimp only; omega⟩
        refine (unhindered_followed roomy power rule fits' (by omega) (by omega)).bind ?_
        rintro ⟨left', c₁⟩ fits
        exact inductionHypothesis fits

omit roomy in
/-- With more room than tokens, expressions are read without a limit. -/
theorem roomy_expression (within : room ≤ limit) : Roomy room (expression d limit room) := by
  induction room with
  | zero => exact fun _ _ fewer => absurd fewer (Nat.not_lt_zero _)
  | succ room inductionHypothesis =>
    intro min c fewer
    have roomy := inductionHypothesis (Nat.le_of_succ_le within)
    have left := Nat.le_of_lt_succ fewer
    refine (unhindered_operand roomy left (Nat.le_of_succ_le within)).bind ?_
    rintro ⟨t, c₁⟩ fits
    exact unhindered_chain roomy min _ fits left (Nat.le_of_succ_le within)

theorem unhindered_allParts (bound : Nat) {c : Cursor} (left : c.rest.length ≤ room) :
    Unhindered (fun result => AllFit c.rest.length (Part.embeds result.1) result.2)
      (allParts inner bound c) := by
  induction bound generalizing c with
  | zero =>
    unfold allParts
    split <;> exact allFit_nil (Nat.le_refl _)
  | succ bound inductionHypothesis =>
    unfold allParts
    split
    · exact allFit_nil (Nat.le_refl _)
    · refine (unhindered_part roomy left).bind ?_
      rintro ⟨p, c₁⟩ first
      have fewer : c₁.rest.length ≤ c.rest.length := Nat.le_trans (Nat.le_add_left ..) first.2
      refine (inductionHypothesis (Nat.le_trans fewer left)).bind ?_
      rintro ⟨ps, c₂⟩ others
      change AllFit c.rest.length (Part.embeds (p :: ps)) c₂
      rw [Part.embeds_cons]
      exact first.append others

end Rules

end Parser

open Formulae.Parser

namespace Tree

/-- The tree of a whole expression, without a limit on its nesting. -/
def parseFreely (d : Dialect) (ts : List Token) : Except ParseError Tree :=
  parseWithin d ((Token.significant ts).length + 1) ts

/-- The template that the tokens are the body of, without a limit on its nesting. -/
def parseTemplateFreely (d : Dialect) (ts : List Token) : Except ParseError Tree :=
  parseTemplateWithin d ((Token.significant ts).length + 1) ts

variable {d : Dialect} {limit : Nat} {ts : List Token}

theorem unhindered_parseWithin (enough : (Token.significant ts).length < limit) :
    Unhindered Sized (parseWithin d limit ts) := by
  unfold parseWithin
  dsimp only
  split
  · intro _ same
    cases same
  · refine (roomy_expression (Nat.le_refl limit) _ _ enough).bind ?_
    rintro ⟨t, c⟩ ⟨sized, _⟩
    refine Unhindered.bind (Q := fun _ => True) ?_ fun _ _ => sized
    unfold finish
    split
    · trivial
    · split
      all_goals
        intro _ same
        cases same

theorem unhindered_parseTemplateWithin (enough : (Token.significant ts).length < limit) :
    Unhindered Sized (parseTemplateWithin d limit ts) := by
  unfold parseTemplateWithin
  have roomy := roomy_expression (d := d) (Nat.le_refl limit)
  refine (unhindered_allParts roomy _ (Nat.le_of_lt enough)).bind ?_
  rintro ⟨ps, c⟩ fits
  exact (unhindered_limited rfl fits enough).mono fun _ fits => fits.1

end Tree

end Formulae
