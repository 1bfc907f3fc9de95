import Formulae.Proofs.Grammar.Lookahead
import Formulae.Proofs.Grammar.Nesting
import Formulae.Proofs.Grammar.Table
import Formulae.Proofs.Tree.Edge

/-!
Binding powers in what is parsed.

An operator is taken while it binds tighter than the power that is parsed at, so along its left
edge a tree binds above that power. What is read ends in front of an operator that binds no
tighter, and so does each operand that ends at the same place: this is what the operator finds
along the right edge of the tree in front of it. `heeds_expression` carries both along, for any
table of operators.
-/

namespace Formulae

open Formulae.Parser

namespace Parser

/-- No operator at the cursor binds tighter than the operands that end with the tree. -/
def EdgeClosed (d : Dialect) (t : Tree) (c : Cursor) : Prop :=
  ∀ p, t.RightEdge d p → Closed d p c.rest

/-- What is known of a tree that ends at the cursor. -/
structure Ended (d : Dialect) (t : Tree) (c : Cursor) : Prop where
  respectful : t.Respectful d
  edge : EdgeClosed d t c

/-- What is known of an expression that was read at a power and ends at the cursor. -/
structure EndedAbove (d : Dialect) (min : Nat) (t : Tree) (c : Cursor) : Prop
    extends Ended d t c where
  above : t.BindsAbove d min
  closed : Closed d min c.rest

/-- What is known of an expression that is read at a power, from one cursor to another. -/
structure ReadAbove (d : Dialect) (min : Nat) (c : Cursor) (t : Tree) (c' : Cursor) : Prop
    extends EndedAbove d min t c' where
  fewer : c'.rest.length ≤ c.rest.length

/-- What is known of an operand that is read from one cursor to another. -/
structure ReadOperand (d : Dialect) (c : Cursor) (t : Tree) (c' : Cursor) : Prop
    extends Ended d t c' where
  fewer : c'.rest.length ≤ c.rest.length
  opens : t.followed? = none

/-- What is known of a tree that an operator makes, read from behind the operator. -/
structure ReadBehind (d : Dialect) (rule : FollowingRule) (left : Tree) (c : Cursor) (t : Tree)
    (c' : Cursor) : Prop extends Ended d t c' where
  fewer : c'.rest.length ≤ c.rest.length
  made : t.followed? = some (rule, left)

/-- Expressions are read as told of the power at which they are read. -/
def Heeds (d : Dialect) (inner : Nat → Step Tree) : Prop :=
  ∀ min c t c', inner min c = .ok (t, c') → ReadAbove d min c t c'

/-- What is known of an expression between brackets. -/
structure Bracketed (d : Dialect) (t : Tree) : Prop where
  respectful : t.Respectful d
  above : t.BindsAbove d Power.loosest

variable {d : Dialect} {limit : Nat} {inner : Nat → Step Tree}

theorem ReadAbove.bracketed {c c' : Cursor} {t : Tree}
    (reads : ReadAbove d Power.loosest c t c') : Bracketed d t :=
  ⟨reads.respectful, reads.above⟩

theorem length_of_demand {symbol : String} {c c' : Cursor} (taken : demand symbol c = .ok c') :
    c'.rest.length < c.rest.length := by
  obtain ⟨_, rest, _⟩ := demand_eq_ok_iff.mp taken
  rw [rest]
  exact Nat.lt_succ_self _

/-- A node ends where its last operand does, if it ends with one. -/
theorem ended_of_node {t : Tree} {c : Cursor} (front : t.FrontFits d)
    (children : ∀ child ∈ t.children, child.Respectful d)
    (inner : ∀ p operand, t.InnerOperand d p operand → operand.BindsAbove d p)
    (last : ∀ p operand, t.LastOperand d p operand → EndedAbove d p operand c) :
    Ended d t c := by
  have respects : t.RespectsPowers d :=
    ⟨front, fun p operand at' => (last p operand at').above, inner⟩
  refine ⟨respects.respectful children, fun p edge => ?_⟩
  cases edge with
  | last at' => exact (last _ _ at').closed
  | within at' edge => exact (last _ _ at').edge p edge

theorem ended_of_leaf {t : Tree} (opens : t.followed? = none) (childless : t.children = [])
    (noLast : ∀ p operand, ¬ t.LastOperand d p operand)
    (noInner : ∀ p operand, ¬ t.InnerOperand d p operand) (c : Cursor) : Ended d t c := by
  apply ended_of_node (Tree.frontFits_of_unfollowed opens)
  · rw [childless]
    exact List.forall_mem_nil _
  · exact fun p operand at' => absurd at' (noInner p operand)
  · exact fun p operand at' => absurd at' (noLast p operand)

theorem ended_of_resolve (s : String) (span : Span) (c : Cursor) :
    Ended d (resolve d s span) c := by
  unfold resolve
  dsimp only
  split
  · exact ended_of_leaf rfl rfl (by rintro _ _ ⟨⟩) (by rintro _ _ ⟨⟩) c
  · split <;> exact ended_of_leaf rfl rfl (by rintro _ _ ⟨⟩) (by rintro _ _ ⟨⟩) c

theorem followed?_resolve (s : String) (span : Span) : (resolve d s span).followed? = none := by
  unfold resolve
  dsimp only
  split
  · rfl
  · split <;> rfl

theorem ended_of_template {ps : List Part} (bracketed : ∀ t ∈ Part.embeds ps, Bracketed d t)
    (mark : Mark) (c : Cursor) : Ended d (.template mark ps) c := by
  apply ended_of_node (Tree.frontFits_of_unfollowed rfl)
  · exact fun t among => (bracketed t among).respectful
  · intro p operand inner
    cases inner with
    | embed _ among => exact (bracketed _ among).above
  · intro p operand last
    cases last

theorem ended_of_call {mark : Mark} {left : Tree} {args : List Tree}
    (front : Tree.FrontFits d (.call mark left args)) (respectful : left.Respectful d)
    (bracketed : ∀ t ∈ args, Bracketed d t) (c : Cursor) : Ended d (.call mark left args) c := by
  apply ended_of_node front
  · exact List.forall_mem_cons.mpr
      ⟨respectful, fun arg among => (bracketed arg among).respectful⟩
  · intro p operand inner
    cases inner with
    | argument _ _ among => exact (bracketed _ among).above
  · intro p operand last
    cases last

theorem length_of_identifier {c c' : Cursor} {s : String} (reads : identifier c = .ok (s, c')) :
    c'.rest.length ≤ c.rest.length := by
  obtain ⟨_, rest, _⟩ := identifier_eq_ok_iff.mp reads
  rw [rest]
  exact Nat.le_succ _

theorem binds_of_following? {c : Cursor} {power : Power} {rule : FollowingRule}
    (found : c.following? d = some (power, rule)) : d.Binds rule power := by
  unfold Cursor.following? at found
  split at found
  · next t _ _ =>
    split at found
    · exact ⟨t.text, found⟩
    · cases found
  · cases found

section Rules

variable (heeds : Heeds d inner)

include heeds

theorem heeds_part {c c' : Cursor} {p : Part} (taken : TakesPart inner c p c') :
    c'.rest.length ≤ c.rest.length ∧ ∀ t ∈ Part.embeds [p], Bracketed d t := by
  cases taken with
  | text => exact ⟨Nat.le_succ _, List.forall_mem_nil _⟩
  | embed isOpen reads closes =>
    have within := heeds _ _ _ _ reads
    refine ⟨?_, List.forall_mem_cons.mpr ⟨within.bracketed, List.forall_mem_nil _⟩⟩
    have last := length_of_demand closes
    have fewer := within.fewer
    simp only [List.length_cons] at fewer ⊢
    omega

theorem heeds_parts {c c' : Cursor} {ps : List Part} (taken : TakesParts inner c ps c') :
    c'.rest.length ≤ c.rest.length ∧ ∀ t ∈ Part.embeds ps, Bracketed d t := by
  induction taken with
  | close => exact ⟨(Cursor.next_suffix _).length_le, List.forall_mem_nil _⟩
  | more _ first _ inductionHypothesis =>
    obtain ⟨fewer, bracketed⟩ := heeds_part heeds first
    obtain ⟨fewer', bracketed'⟩ := inductionHypothesis
    refine ⟨Nat.le_trans fewer' fewer, ?_⟩
    rw [Part.embeds_cons, List.forall_mem_append]
    exact ⟨bracketed, bracketed'⟩

theorem heeds_allParts {bound : Nat} {c c' : Cursor} {ps : List Part}
    (taken : TakesAllParts inner bound c ps c') : ∀ t ∈ Part.embeds ps, Bracketed d t := by
  induction taken with
  | stop => exact List.forall_mem_nil _
  | more _ first _ inductionHypothesis =>
    rw [Part.embeds_cons, List.forall_mem_append]
    exact ⟨(heeds_part heeds first).2, inductionHypothesis⟩

theorem heeds_arguments {c c' : Cursor} {ts : List Tree} (taken : TakesArguments inner c ts c') :
    c'.rest.length ≤ c.rest.length ∧ ∀ t ∈ ts, Bracketed d t := by
  induction taken with
  | last reads _ closes =>
    have within := heeds _ _ _ _ reads
    refine ⟨Nat.le_trans (Nat.le_of_lt (length_of_demand closes)) within.fewer, ?_⟩
    exact List.forall_mem_cons.mpr ⟨within.bracketed, List.forall_mem_nil _⟩
  | more reads _ _ inductionHypothesis =>
    have within := heeds _ _ _ _ reads
    obtain ⟨fewer, bracketed⟩ := inductionHypothesis
    refine ⟨?_, List.forall_mem_cons.mpr ⟨within.bracketed, bracketed⟩⟩
    exact Nat.le_trans fewer (Nat.le_trans (Cursor.next_suffix _).length_le within.fewer)

theorem heeds_opened {start : Span} {rule : OpeningRule} {c c' : Cursor} {t : Tree}
    (taken : TakesOpened inner start c rule t c') : ReadOperand d c t c' := by
  cases taken with
  | group reads closes =>
    have within := heeds _ _ _ _ reads
    have fewer := Nat.le_trans (Nat.le_of_lt (length_of_demand closes)) within.fewer
    refine ⟨ended_of_node (Tree.frontFits_of_unfollowed rfl) ?_ ?_ ?_, fewer, rfl⟩
    · simpa [Tree.children] using within.respectful
    · intro p operand inner
      cases inner
      exact within.above
    · intro p operand last
      cases last
  | template parts =>
    obtain ⟨fewer, bracketed⟩ := heeds_parts heeds parts
    exact ⟨ended_of_template bracketed _ _, fewer, rfl⟩
  | unary reads =>
    have within := heeds _ _ _ _ reads
    refine ⟨ended_of_node (Tree.frontFits_of_unfollowed rfl) ?_ ?_ ?_, within.fewer, rfl⟩
    · simpa [Tree.children] using within.respectful
    · intro p operand inner
      cases inner
    · intro p operand last
      cases last
      exact within.toEndedAbove

theorem heeds_operand {c c' : Cursor} {t : Tree} (taken : TakesOperand d limit inner c t c') :
    ReadOperand d c t c' := by
  cases taken with
  | literal =>
    exact ⟨ended_of_leaf rfl rfl (by rintro _ _ ⟨⟩) (by rintro _ _ ⟨⟩) _, Nat.le_succ _, rfl⟩
  | name => exact ⟨ended_of_resolve .., Nat.le_succ _, followed?_resolve ..⟩
  | opened _ _ taken =>
    have opened := heeds_opened heeds taken
    exact ⟨opened.toEnded, Nat.le_succ_of_le opened.fewer, opened.opens⟩

/-- An operator takes the tree in front of it as a whole, if it binds no tighter than the
operands that end with the tree. -/
theorem heeds_followed (differ : d.RulesDiffer) {left t : Tree} {power : Power}
    {rule : FollowingRule} {c c' : Cursor} (binds : d.Binds rule power)
    (respectful : left.Respectful d) (front : ∀ p, left.RightEdge d p → power.left ≤ p)
    (taken : TakesFollowed inner left power c rule t c') : ReadBehind d rule left c t c' := by
  have fits {t : Tree} (made : t.followed? = some (rule, left)) : t.FrontFits d :=
    Tree.frontFits_of_followed made binds front
  cases taken with
  | binary reads =>
    have within := heeds _ _ _ _ reads
    refine ⟨ended_of_node (fits rfl) ?_ ?_ ?_, within.fewer, rfl⟩
    · simpa [Tree.children] using ⟨respectful, within.respectful⟩
    · intro p operand inner
      cases inner
    · intro p operand last
      cases last with
      | binary _ _ _ binds' =>
        obtain rfl := binds.unique differ binds'
        exact within.toEndedAbove
  | assign reads =>
    have within := heeds _ _ _ _ reads
    refine ⟨ended_of_node (fits rfl) ?_ ?_ ?_, within.fewer, rfl⟩
    · simpa [Tree.children] using ⟨respectful, within.respectful⟩
    · intro p operand inner
      cases inner
    · intro p operand last
      cases last with
      | assign _ _ _ binds' =>
        obtain rfl := binds.unique differ binds'
        exact within.toEndedAbove
  | step =>
    refine ⟨ended_of_node (fits rfl) ?_ ?_ ?_, Nat.le_refl _, rfl⟩
    · simpa [Tree.children] using respectful
    · intro p operand inner
      cases inner
    · intro p operand last
      cases last
  | access named =>
    refine ⟨ended_of_node (fits rfl) ?_ ?_ ?_, length_of_identifier named, rfl⟩
    · simpa [Tree.children, Selector.keys] using respectful
    · intro p operand inner
      cases inner
    · intro p operand last
      cases last
  | lookup reads closes =>
    have within := heeds _ _ _ _ reads
    have fewer := Nat.le_trans (Nat.le_of_lt (length_of_demand closes)) within.fewer
    refine ⟨ended_of_node (fits rfl) ?_ ?_ ?_, fewer, rfl⟩
    · simpa [Tree.children, Selector.keys] using ⟨respectful, within.respectful⟩
    · intro p operand inner
      cases inner
      exact within.above
    · intro p operand last
      cases last
  | invoke =>
    exact ⟨ended_of_call (fits rfl) respectful (List.forall_mem_nil _) _,
      c.next_suffix.length_le, rfl⟩
  | call _ arguments =>
    obtain ⟨fewer, bracketed⟩ := heeds_arguments heeds arguments
    exact ⟨ended_of_call (fits rfl) respectful bracketed _, fewer, rfl⟩
  | choice readsYes colon readsNo =>
    have first := heeds _ _ _ _ readsYes
    have second := heeds _ _ _ _ readsNo
    refine ⟨ended_of_node (fits rfl) ?_ ?_ ?_, ?_, rfl⟩
    · simpa [Tree.children] using ⟨respectful, first.respectful, second.respectful⟩
    · intro p operand inner
      cases inner with
      | yes _ _ _ _ binds' =>
        obtain rfl := binds.unique differ binds'
        exact first.above
    · intro p operand last
      cases last
      exact second.toEndedAbove
    · have before := first.fewer
      have between := length_of_demand colon
      have behind := second.fewer
      omega

/-- The operators behind a tree are taken while they bind tighter than the power. -/
theorem heeds_chain (differ : d.RulesDiffer) {min bound : Nat} {left t : Tree} {c c' : Cursor}
    (ended : Ended d left c) (above : left.BindsAbove d min) (enough : c.rest.length ≤ bound)
    (taken : TakesChain d limit inner min bound left c t c') : ReadAbove d min c t c' := by
  induction taken with
  | stop ends => exact ⟨⟨ended, above, closed_of_stop ends enough⟩, Nat.le_refl _⟩
  | @step _ _ _ _ _ _ _ power rule found tighter taken _ _ inductionHypothesis =>
    have next := Cursor.length_of_following? found
    have binds : d.Binds rule power := binds_of_following? found
    -- The operator stands where `left` ends, and it was just found to bind tighter than `min`.
    have behind := heeds_followed heeds differ binds ended.respectful
      (fun p edge => ended.edge p edge power rule found) taken
    have above' := above.followed behind.made binds tighter
    have fewer := behind.fewer
    have reads := inductionHypothesis behind.toEnded above' (by omega)
    have fewer' := reads.fewer
    exact ⟨reads.toEndedAbove, by omega⟩

end Rules

/-- What the parser reads at a power binds tighter along its left edge, ends in front of an
operator that binds no tighter, and respects the powers at all its nodes. -/
theorem heeds_expression (differ : d.RulesDiffer) (limit room : Nat) :
    Heeds d (expression d limit room) := by
  induction room with
  | zero => exact fun _ _ _ _ reads => nomatch reads
  | succ room inductionHypothesis =>
    intro min c t c' reads
    obtain ⟨⟨left, c₁⟩, operand, chain⟩ := bind_eq_ok_iff.mp reads
    have operand := heeds_operand inductionHypothesis (operand_eq_ok_iff.mp operand)
    have reads := heeds_chain inductionHypothesis differ operand.toEnded
      (Tree.bindsAbove_of_unfollowed operand.opens min) (Nat.le_refl _) (chain_eq_ok_iff.mp chain)
    exact ⟨reads.toEndedAbove, Nat.le_trans reads.fewer operand.fewer⟩

end Parser

open Formulae.Parser

theorem Dialect.Standard.rulesDiffer {d : Dialect} {assigning : Bool}
    (standard : d.Standard assigning) : d.RulesDiffer := by
  intro symbol symbol' power power' rule found found'
  obtain ⟨spelled, _⟩ := (standard.following _ _ _).mp found
  obtain ⟨spelled', _⟩ := (standard.following _ _ _).mp found'
  exact spelled.symm.trans spelled'

namespace Tree

variable {d : Dialect} {ts : List Token} {t : Tree}

theorem respectful_of_parseWithin {limit : Nat} (differ : d.RulesDiffer)
    (parsed : parseWithin d limit ts = .ok t) : t.Respectful d := by
  unfold parseWithin at parsed
  dsimp only at parsed
  split at parsed
  · cases parsed
  · obtain ⟨⟨u, c⟩, reads, finishes⟩ := bind_eq_ok_iff.mp parsed
    obtain ⟨_, _, same⟩ := bind_eq_ok_iff.mp finishes
    cases pure_eq_ok_iff.mp same
    exact (heeds_expression differ limit limit _ _ _ _ reads).respectful

theorem respectful_of_parseTemplateWithin {limit : Nat} (differ : d.RulesDiffer)
    (parsed : parseTemplateWithin d limit ts = .ok t) : t.Respectful d := by
  obtain ⟨⟨ps, c⟩, reads, limits⟩ := bind_eq_ok_iff.mp parsed
  obtain ⟨_, rfl⟩ := limited_eq_ok_iff.mp limits
  have bracketed := heeds_allParts (heeds_expression differ limit limit)
    (allParts_eq_ok_iff.mp reads)
  exact (ended_of_template bracketed _ c).respectful

/-- For every table of operators in which no two have the same rule, whatever their powers, each
operator in a tree that is parsed binds no tighter than the operands that end in front of it, and
the operators that start an operand bind tighter than the power at which it was parsed. -/
theorem powers_respected (differ : d.RulesDiffer)
    (parsed : parse d ts = .ok t ∨ parseTemplate d ts = .ok t) (node : Tree)
    (inside : node.NodeOf t) : node.RespectsPowers d := by
  rcases parsed with parsed | parsed
  · exact respectful_of_parseWithin differ parsed node inside
  · exact respectful_of_parseTemplateWithin differ parsed node inside

/-- A difference from a negated name, with a product behind it. -/
theorem powers_respected_of_difference :
    let word (s : String) : Token := ⟨.identifier, default, s, none⟩
    let operator (s : String) : Token := ⟨.operator, default, s, none⟩
    let ts := [operator "-", word "a", operator "-", word "b", operator "*", word "c"]
    ∃ t, parse (.assignment {}) ts = .ok t ∧ t.height = 3 ∧
      ∀ node : Tree, node.NodeOf t → node.RespectsPowers (.assignment {}) := by
  intro word operator ts
  have height : (parse (.assignment {}) ts).toOption.map Tree.height = some 3 := by decide +kernel
  cases parsed : parse (.assignment {}) ts with
  | error e => simp [parsed, Except.toOption] at height
  | ok t =>
    have differ := (Dialect.standard_assignment {}).rulesDiffer
    exact ⟨t, rfl, by simpa [parsed, Except.toOption] using height,
      powers_respected differ (.inl parsed)⟩

end Tree

end Formulae
