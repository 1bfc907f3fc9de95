import Formulae.Proofs.Grammar.Unlimited

/-!
The limit on nesting is a limit on the height of trees.

A tree that is read under some limits is read under all limits that it does not exceed: each
expression that is open while a node is read is above the node in the tree.
-/

namespace Formulae

namespace Parser

/-- The mark of a node is over the children that were read for it. -/
theorem TakesOpened.mark_eq {inner : Nat → Step Tree} {start : Span} {rule : OpeningRule}
    {c c' : Cursor} {t : Tree} (taken : TakesOpened inner start c rule t c') :
    t.mark = .over t.span t.children := by
  cases taken <;> rfl

theorem TakesFollowed.mark_eq {inner : Nat → Step Tree} {left t : Tree} {power : Power}
    {rule : FollowingRule} {c c' : Cursor} (taken : TakesFollowed inner left power c rule t c') :
    t.mark = .over t.span t.children := by
  cases taken <;> rfl

theorem TakesFollowed.left_mem {inner : Nat → Step Tree} {left t : Tree} {power : Power}
    {rule : FollowingRule} {c c' : Cursor} (taken : TakesFollowed inner left power c rule t c') :
    left ∈ t.children := by
  cases taken <;> exact List.mem_cons_self

theorem depth_le_of_child {t u : Tree} {room : Nat} (made : t.mark = .over t.span t.children)
    (shallow : t.depth ≤ room + 1) (child : u ∈ t.children) : u.depth ≤ room :=
  Nat.le_of_lt_succ (Nat.lt_of_lt_of_le (Tree.depth_lt_of_over made child) shallow)

/-- What operators make is deeper than the tree in front of them. -/
theorem depth_le_of_chain {d : Dialect} {limit : Nat} {inner : Nat → Step Tree} {min bound : Nat}
    {left t : Tree} {c c' : Cursor} (taken : TakesChain d limit inner min bound left c t c') :
    left.depth ≤ t.depth := by
  induction taken with
  | stop => exact Nat.le_refl _
  | step _ _ taken _ _ inductionHypothesis =>
    have deeper := Tree.depth_lt_of_over taken.mark_eq taken.left_mem
    exact Nat.le_trans (Nat.le_of_lt deeper) inductionHypothesis

theorem depth_pos_of_over {t : Tree} {span : Span} {children : List Tree}
    (made : t.mark = .over span children) : 0 < t.depth := by
  rw [Tree.depth, made, Tree.depth_over]
  omega

theorem depth_pos_of_operand {d : Dialect} {limit : Nat} {inner : Nat → Step Tree} {t : Tree}
    {c c' : Cursor} (taken : TakesOperand d limit inner c t c') : 0 < t.depth := by
  cases taken with
  | literal => exact depth_pos_of_over rfl
  | name =>
    rw [depth_resolve]
    exact Nat.one_pos
  | opened _ _ taken => exact depth_pos_of_over taken.mark_eq

/-- Expressions that are no deeper than the room are read by the second as by the first. -/
def Reaches (room : Nat) (inner inner' : Nat → Step Tree) : Prop :=
  ∀ min c t c', inner min c = .ok (t, c') → t.depth ≤ room → inner' min c = .ok (t, c')

section Rules

variable {d : Dialect} {room limit limit' : Nat} {inner inner' : Nat → Step Tree}
  (reaches : Reaches room inner inner')

include reaches

theorem TakesPart.of_reaches {c c' : Cursor} {p : Part} (taken : TakesPart inner c p c')
    (shallow : ∀ t ∈ Part.embeds [p], t.depth ≤ room) : TakesPart inner' c p c' := by
  cases taken with
  | text isText => exact .text isText
  | @embed _ _ _ _ _ t isOpen reads closes =>
    have again := reaches _ _ _ _ reads (shallow t (by simp [Part.embeds]))
    exact .embed isOpen again closes

theorem TakesParts.of_reaches {c c' : Cursor} {ps : List Part} (taken : TakesParts inner c ps c')
    (shallow : ∀ t ∈ Part.embeds ps, t.depth ≤ room) : TakesParts inner' c ps c' := by
  induction taken with
  | close isClose => exact .close isClose
  | more notClose first _ inductionHypothesis =>
    rw [Part.embeds_cons, List.forall_mem_append] at shallow
    exact .more notClose (first.of_reaches reaches shallow.1) (inductionHypothesis shallow.2)

theorem TakesAllParts.of_reaches {bound : Nat} {c c' : Cursor} {ps : List Part}
    (taken : TakesAllParts inner bound c ps c')
    (shallow : ∀ t ∈ Part.embeds ps, t.depth ≤ room) : TakesAllParts inner' bound c ps c' := by
  induction taken with
  | stop ends => exact .stop ends
  | more nonempty first _ inductionHypothesis =>
    rw [Part.embeds_cons, List.forall_mem_append] at shallow
    exact .more nonempty (first.of_reaches reaches shallow.1) (inductionHypothesis shallow.2)

theorem TakesArguments.of_reaches {c c' : Cursor} {ts : List Tree}
    (taken : TakesArguments inner c ts c') (shallow : ∀ t ∈ ts, t.depth ≤ room) :
    TakesArguments inner' c ts c' := by
  induction taken with
  | last reads notMore closes =>
    exact .last (reaches _ _ _ _ reads (shallow _ List.mem_cons_self)) notMore closes
  | more reads isMore _ inductionHypothesis =>
    rw [List.forall_mem_cons] at shallow
    exact .more (reaches _ _ _ _ reads shallow.1) isMore (inductionHypothesis shallow.2)

theorem TakesOpened.of_reaches {start : Span} {rule : OpeningRule} {c c' : Cursor} {t : Tree}
    (taken : TakesOpened inner start c rule t c') (shallow : ∀ u ∈ t.children, u.depth ≤ room) :
    TakesOpened inner' start c rule t c' := by
  cases taken with
  | group reads closes =>
    exact .group (reaches _ _ _ _ reads (shallow _ List.mem_cons_self)) closes
  | template parts enough => exact .template (parts.of_reaches reaches shallow) enough
  | unary reads => exact .unary (reaches _ _ _ _ reads (shallow _ List.mem_cons_self))

theorem TakesOperand.of_reaches {c c' : Cursor} {t : Tree}
    (taken : TakesOperand d limit inner c t c') (shallow : t.depth ≤ room + 1)
    (within : t.depth ≤ limit') : TakesOperand d limit' inner' c t c' := by
  cases taken with
  | literal isLiteral => exact .literal isLiteral
  | name isName => exact .name isName
  | opened isOperator found taken =>
    have again := taken.of_reaches reaches fun _ => depth_le_of_child taken.mark_eq shallow
    exact .opened isOperator found again within

theorem TakesFollowed.of_reaches {left : Tree} {power : Power} {rule : FollowingRule}
    {c c' : Cursor} {t : Tree} (taken : TakesFollowed inner left power c rule t c')
    (shallow : ∀ u ∈ t.children, u.depth ≤ room) :
    TakesFollowed inner' left power c rule t c' := by
  cases taken with
  | binary reads => exact .binary (reaches _ _ _ _ reads (shallow _ (by simp [Tree.children])))
  | assign reads => exact .assign (reaches _ _ _ _ reads (shallow _ (by simp [Tree.children])))
  | step => exact .step
  | access named => exact .access named
  | lookup reads closes =>
    have again := reaches _ _ _ _ reads (shallow _ (by simp [Tree.children, Selector.keys]))
    exact .lookup again closes
  | invoke isClose => exact .invoke isClose
  | call notClose arguments enough =>
    have again := arguments.of_reaches reaches fun u member =>
      shallow u (List.mem_cons_of_mem _ member)
    exact .call notClose again enough
  | choice readsYes colon readsNo =>
    have yes := reaches _ _ _ _ readsYes (shallow _ (by simp [Tree.children]))
    have no := reaches _ _ _ _ readsNo (shallow _ (by simp [Tree.children]))
    exact .choice yes colon no

theorem TakesChain.of_reaches {min bound : Nat} {left : Tree} {c c' : Cursor} {t : Tree}
    (taken : TakesChain d limit inner min bound left c t c') (shallow : t.depth ≤ room + 1)
    (within : t.depth ≤ limit') : TakesChain d limit' inner' min bound left c t c' := by
  induction taken with
  | stop ends => exact .stop ends
  | step found tighter taken _ others inductionHypothesis =>
    have deeper := depth_le_of_chain others
    have again := taken.of_reaches reaches fun _ =>
      depth_le_of_child taken.mark_eq (Nat.le_trans deeper shallow)
    exact .step found tighter again (Nat.le_trans deeper within)
      (inductionHypothesis shallow within)

end Rules

/-- What is read with some room is read with all room that the tree does not exceed. -/
theorem reaches_expression (d : Dialect) (limit room : Nat) {room' limit' : Nat}
    (within : room' ≤ limit') :
    Reaches room' (expression d limit room) (expression d limit' room') := by
  induction room generalizing room' with
  | zero => exact fun _ _ _ _ reads => nomatch reads
  | succ room inductionHypothesis =>
    intro min c t c' reads shallow
    obtain ⟨⟨left, c₁⟩, operand, chain⟩ := bind_eq_ok_iff.mp reads
    have operand := operand_eq_ok_iff.mp operand
    have chain := chain_eq_ok_iff.mp chain
    have deeper := depth_le_of_chain chain
    obtain _ | room' := room'
    · -- No tree is so low that it fits where there is no room.
      have positive := depth_pos_of_operand operand
      omega
    · have reaches := inductionHypothesis (Nat.le_of_succ_le within)
      have within' := Nat.le_trans shallow within
      have operand' := operand.of_reaches reaches (Nat.le_trans deeper shallow)
        (Nat.le_trans deeper within')
      have chain' := chain.of_reaches reaches shallow within'
      exact bind_eq_ok_iff.mpr ⟨_, operand_eq_ok_iff.mpr operand', chain_eq_ok_iff.mpr chain'⟩

end Parser

open Formulae.Parser

namespace Tree

variable {d : Dialect} {limit limit' : Nat} {ts : List Token} {t : Tree}

/-- What is read within some limit is read within each limit that the tree does not exceed. -/
theorem parseWithin_of_depth_le (parsed : parseWithin d limit ts = .ok t)
    (within : t.depth ≤ limit') : parseWithin d limit' ts = .ok t := by
  unfold parseWithin at parsed ⊢
  dsimp only at parsed ⊢
  split at parsed
  · cases parsed
  · next nonempty =>
    rw [if_neg nonempty]
    obtain ⟨⟨u, c⟩, reads, finishes⟩ := bind_eq_ok_iff.mp parsed
    obtain ⟨_, ends, same⟩ := bind_eq_ok_iff.mp finishes
    cases pure_eq_ok_iff.mp same
    have again := reaches_expression d limit limit (Nat.le_refl limit') _ _ _ _ reads within
    exact bind_eq_ok_iff.mpr ⟨_, again, bind_eq_ok_iff.mpr ⟨_, ends, rfl⟩⟩

theorem parseTemplateWithin_of_depth_le (parsed : parseTemplateWithin d limit ts = .ok t)
    (within : t.depth ≤ limit') : parseTemplateWithin d limit' ts = .ok t := by
  obtain ⟨⟨ps, c⟩, reads, limits⟩ := bind_eq_ok_iff.mp parsed
  obtain ⟨_, rfl⟩ := limited_eq_ok_iff.mp limits
  have reaches := reaches_expression d limit limit (Nat.le_refl limit')
  have again := (allParts_eq_ok_iff.mp reads).of_reaches reaches
    fun u member => depth_le_of_over (Nat.le_succ_of_le within) member
  exact bind_eq_ok_iff.mpr ⟨_, allParts_eq_ok_iff.mpr again, limited_eq_ok_iff.mpr ⟨within, rfl⟩⟩

/-- What a limited parser makes of tokens next to what a free one makes of them. -/
structure LimitedByHeight (limited free : Except ParseError Tree) : Prop where
  /-- The free parser finds nothing nested too deep. -/
  unlimited : ∀ n, free ≠ .error (.nestingTooDeep n)
  /-- A tree that the free parser accepts is accepted if it is not too high. -/
  accepted : ∀ t, free = .ok t →
    limited = if t.height ≤ depthLimit then .ok t else .error (.nestingTooDeep depthLimit)
  /-- In what is accepted every node records its height. -/
  sized : ∀ t, limited = .ok t → t.Sized

/-- A family of parsers, one for each limit, of which none beyond `count` meets its limit. -/
theorem limitedByHeight (within : Nat → Except ParseError Tree) {count : Nat}
    (unhindered : ∀ limit, count < limit → Unhindered Sized (within limit))
    (lockstep : ∀ limit limit', limit ≤ limit' → Lockstep limit (within limit) (within limit'))
    (bounded : ∀ limit t, within limit = .ok t → t.depth ≤ limit)
    (reaches : ∀ limit limit' t, within limit = .ok t → t.depth ≤ limit' → within limit' = .ok t) :
    (∀ limit, count < limit → within limit = within (count + 1)) ∧
      LimitedByHeight (within depthLimit) (within (count + 1)) := by
  have free := unhindered (count + 1) (Nat.lt_succ_self count)
  refine ⟨fun limit enough => ?_, ?_, fun t accepted => ?_, fun t accepted => ?_⟩
  · rcases lockstep (count + 1) limit enough with tooDeep | same
    · rw [tooDeep] at free
      exact absurd rfl (free _)
    · exact same.symm
  · intro n tooDeep
    rw [tooDeep] at free
    exact free n rfl
  · have sized : t.Sized := by rwa [accepted] at free
    rw [← sized.depth_eq]
    split
    · next shallow => exact reaches _ _ _ accepted shallow
    · next tooDeep =>
      -- A limited parser that agreed with the free one would return a tree above its limit.
      have least : depthLimit ≤ count + 1 := by
        have := bounded _ _ accepted
        omega
      rcases lockstep _ _ least with limited | same
      · exact limited
      · exact absurd (bounded _ _ (same.trans accepted)) tooDeep
  · have enough : count < max (count + 1) depthLimit :=
      Nat.lt_of_lt_of_le (Nat.lt_succ_self count) (Nat.le_max_left ..)
    have free := unhindered _ enough
    rcases lockstep _ _ (Nat.le_max_right (count + 1) depthLimit) with tooDeep | same
    · rw [tooDeep] at accepted
      cases accepted
    · rw [← same, accepted] at free
      exact free

/-- The limit on nesting is the limit on the height of trees, for whole expressions and for
templates. No limit beyond the number of the tokens is ever met, so all of them are alike; what
is accepted without a limit is accepted as it is if it is no higher than the limit, and is
reported as nested too deep otherwise. -/
theorem nesting_limited_by_height (d : Dialect) (ts : List Token) :
    (∀ limit, (Token.significant ts).length < limit →
      parseWithin d limit ts = parseFreely d ts ∧
      parseTemplateWithin d limit ts = parseTemplateFreely d ts) ∧
    LimitedByHeight (parse d ts) (parseFreely d ts) ∧
    LimitedByHeight (parseTemplate d ts) (parseTemplateFreely d ts) := by
  obtain ⟨free, limited⟩ := limitedByHeight (fun limit => parseWithin d limit ts)
    (fun _ => unhindered_parseWithin) (fun _ _ deeper => Lockstep.parseWithin d deeper ts)
    (fun _ _ => depth_of_parseWithin) (fun _ _ _ => parseWithin_of_depth_le)
  obtain ⟨freeTemplate, limitedTemplate⟩ :=
    limitedByHeight (fun limit => parseTemplateWithin d limit ts)
    (fun _ => unhindered_parseTemplateWithin)
    (fun _ _ deeper => Lockstep.parseTemplateWithin d deeper ts)
    (fun _ _ => depth_of_parseTemplateWithin) (fun _ _ _ => parseTemplateWithin_of_depth_le)
  exact ⟨fun limit enough => ⟨free limit enough, freeTemplate limit enough⟩,
    limited, limitedTemplate⟩

/-- A name behind 256 minus signs is one higher than the limit. -/
theorem nesting_limited_by_height_of_negations :
    let negated (n : Nat) : List Token :=
      .replicate n ⟨.operator, default, "-", none⟩ ++ [⟨.identifier, default, "a", none⟩]
    (∃ t, parse (.assignment {}) (negated 255) = .ok t ∧ t.height = depthLimit ∧ t.Sized) ∧
    ∃ t, parseFreely (.assignment {}) (negated 256) = .ok t ∧ t.height = depthLimit + 1 ∧
      parse (.assignment {}) (negated 256) = .error (.nestingTooDeep depthLimit) := by
  intro negated
  have free (n : Nat) (height : (parseFreely (.assignment {}) (negated n)).toOption.map Tree.height
      = some (n + 1)) : ∃ t, parseFreely (.assignment {}) (negated n) = .ok t ∧
        t.height = n + 1 := by
    cases accepted : parseFreely (.assignment {}) (negated n) with
    | error e => simp [accepted, Except.toOption] at height
    | ok t => exact ⟨t, rfl, by simpa [accepted, Except.toOption] using height⟩
  constructor
  · obtain ⟨t, accepted, height⟩ := free 255 (by decide +kernel)
    obtain ⟨_, whole, _⟩ := nesting_limited_by_height (.assignment {}) (negated 255)
    have accepted := whole.accepted t accepted
    rw [height, if_pos (by decide)] at accepted
    exact ⟨t, accepted, height, whole.sized t accepted⟩
  · obtain ⟨t, accepted, height⟩ := free 256 (by decide +kernel)
    obtain ⟨_, whole, _⟩ := nesting_limited_by_height (.assignment {}) (negated 256)
    have rejected := whole.accepted t accepted
    rw [height, if_neg (by decide)] at rejected
    exact ⟨t, accepted, height, rejected⟩

end Tree

end Formulae
