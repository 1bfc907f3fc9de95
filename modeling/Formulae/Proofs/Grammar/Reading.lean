import Formulae.Proofs.Grammar.Completeness

/-!
What the parser takes when it succeeds.

Each rule of the parser is inverted here once: which expressions it reads, which tokens it finds
between them and which tree it makes. The relations say the same as the functions, over whatever
reads the expressions inside, so what is known of parsed trees is shown by cases on what was
taken, and a reader may be exchanged for another one that reads the same subtrees.
-/

namespace Formulae.Parser

theorem bind_eq_ok_iff {α β : Type} {x : Except ParseError α} {f : α → Except ParseError β}
    {b : β} : x >>= f = .ok b ↔ ∃ a, x = .ok a ∧ f a = .ok b := by
  cases x <;> simp [bind, Except.bind]

theorem pure_eq_ok_iff {α : Type} {a b : α} :
    (pure a : Except ParseError α) = .ok b ↔ a = b := by
  simp [pure, Except.pure]

theorem limited_eq_ok_iff {limit : Nat} {t u : Tree} :
    limited limit t = .ok u ↔ t.depth ≤ limit ∧ t = u := by
  unfold limited
  split
  · simp only [reduceCtorEq, false_iff]
    omega
  · simp only [Except.ok.injEq]
    exact ⟨fun same => ⟨by omega, same⟩, And.right⟩

theorem node_eq_ok_iff {limit : Nat} {t u : Tree} {c c' : Cursor} :
    (do let tree ← limited limit t; return (tree, c)) = Except.ok (u, c') ↔
      u.depth ≤ limit ∧ t = u ∧ c = c' := by
  simp only [bind_eq_ok_iff, limited_eq_ok_iff, pure_eq_ok_iff, Prod.mk.injEq]
  constructor
  · rintro ⟨_, ⟨within, rfl⟩, rfl, rfl⟩
    exact ⟨within, rfl, rfl⟩
  · rintro ⟨within, rfl, rfl⟩
    exact ⟨t, ⟨within, rfl⟩, rfl, rfl⟩

theorem demand_eq_ok_iff {symbol : String} {c c' : Cursor} :
    demand symbol c = .ok c' ↔
      ∃ o, c.rest = o :: c'.rest ∧ o.isOperator symbol = true ∧ c'.last = o.span := by
  obtain ⟨s, rest⟩ := c
  obtain ⟨s', rest'⟩ := c'
  cases rest with
  | nil => simp [demand, Cursor.isAt]
  | cons o rest =>
    by_cases isOp : o.isOperator symbol = true
    · rw [demand_eq_ok isOp]
      simp only [Except.ok.injEq, Cursor.mk.injEq, List.cons.injEq]
      constructor
      · rintro ⟨rfl, rfl⟩
        exact ⟨o, ⟨rfl, rfl⟩, isOp, rfl⟩
      · rintro ⟨_, ⟨rfl, rfl⟩, _, rfl⟩
        exact ⟨rfl, rfl⟩
    · have notAt : ¬ (Cursor.mk s (o :: rest)).isAt symbol = true := isOp
      simp only [demand, if_neg notAt, reduceCtorEq, List.cons.injEq, false_iff]
      rintro ⟨_, ⟨rfl, _⟩, isOp', _⟩
      exact isOp isOp'

theorem identifier_eq_ok_iff {c c' : Cursor} {s : String} :
    identifier c = .ok (s, c') ↔
      ∃ t, c.rest = t :: c'.rest ∧ t.kind = .identifier ∧ t.text = s ∧ c'.last = t.span := by
  obtain ⟨_, _ | ⟨t, rest⟩⟩ := c
  · simp [identifier]
  · obtain ⟨s', rest'⟩ := c'
    by_cases isName : t.kind = .identifier
    · simp only [identifier, isName, if_true, Except.ok.injEq, Prod.mk.injEq, Cursor.mk.injEq,
        List.cons.injEq]
      constructor
      · rintro ⟨rfl, rfl, rfl⟩
        exact ⟨t, ⟨rfl, rfl⟩, isName, rfl, rfl⟩
      · rintro ⟨_, ⟨rfl, rfl⟩, _, rfl, rfl⟩
        exact ⟨rfl, rfl, rfl⟩
    · simp [identifier, isName]

theorem Cursor.isAt_iff {symbol : String} {c : Cursor} : c.isAt symbol = true ↔
    ∃ o, o.isOperator symbol = true ∧ c.rest = o :: c.next.rest ∧ c.next.last = o.span := by
  obtain ⟨s, _ | ⟨o, rest⟩⟩ := c
  · simp [Cursor.isAt]
  · simp only [Cursor.isAt, Cursor.next, List.cons.injEq]
    constructor
    · exact fun isOp => ⟨o, isOp, ⟨rfl, trivial⟩, rfl⟩
    · rintro ⟨_, isOp, ⟨rfl, _⟩, _⟩
      exact isOp

/-- A piece of a template, between two cursors. -/
inductive TakesPart (inner : Nat → Step Tree) : Cursor → Part → Cursor → Prop
  | text {s : Span} {t : Token} {rest : List Token} (isText : t.kind = .literal) :
      TakesPart inner ⟨s, t :: rest⟩ (.text t.content) ⟨t.span, rest⟩
  | embed {s : Span} {o : Token} {rest : List Token} {c c' : Cursor} {t : Tree}
      (isOpen : o.isOperator "\x7b" = true)
      (reads : inner Power.loosest ⟨o.span, rest⟩ = .ok (t, c))
      (closes : demand "\x7d" c = .ok c') : TakesPart inner ⟨s, o :: rest⟩ (.embed t) c'

/-- The pieces of a template, and the backtick that closes them. -/
inductive TakesParts (inner : Nat → Step Tree) : Cursor → List Part → Cursor → Prop
  | close {c : Cursor} (isClose : c.isAt "\x60" = true) : TakesParts inner c [] c.next
  | more {c c₁ c' : Cursor} {p : Part} {ps : List Part} (notClose : ¬ c.isAt "\x60" = true)
      (first : TakesPart inner c p c₁) (others : TakesParts inner c₁ ps c') :
      TakesParts inner c (p :: ps) c'

/-- The pieces of a bare template, up to the last token or to a bound on their number. -/
inductive TakesAllParts (inner : Nat → Step Tree) : Nat → Cursor → List Part → Cursor → Prop
  | stop {bound : Nat} {c : Cursor} (ends : c.rest = [] ∨ bound = 0) :
      TakesAllParts inner bound c [] c
  | more {bound : Nat} {c c₁ c' : Cursor} {p : Part} {ps : List Part} (nonempty : c.rest ≠ [])
      (first : TakesPart inner c p c₁) (others : TakesAllParts inner bound c₁ ps c') :
      TakesAllParts inner (bound + 1) c (p :: ps) c'

/-- Arguments, and the parenthesis that closes them. -/
inductive TakesArguments (inner : Nat → Step Tree) : Cursor → List Tree → Cursor → Prop
  | last {c c₁ c' : Cursor} {t : Tree} (reads : inner Power.loosest c = .ok (t, c₁))
      (notMore : ¬ c₁.isAt "," = true) (closes : demand ")" c₁ = .ok c') :
      TakesArguments inner c [t] c'
  | more {c c₁ c' : Cursor} {t : Tree} {ts : List Tree}
      (reads : inner Power.loosest c = .ok (t, c₁)) (isMore : c₁.isAt "," = true)
      (others : TakesArguments inner c₁.next ts c') : TakesArguments inner c (t :: ts) c'

/-- What follows an opening operator at `start`, rule by rule. -/
inductive TakesOpened (inner : Nat → Step Tree) (start : Span) (c : Cursor) :
    OpeningRule → Tree → Cursor → Prop
  | group {c₁ c' : Cursor} {t : Tree} (reads : inner Power.loosest c = .ok (t, c₁))
      (closes : demand ")" c₁ = .ok c') :
      TakesOpened inner start c .group (.group (.over (start.merge c'.last) [t]) t) c'
  | template {c' : Cursor} {ps : List Part} (parts : TakesParts inner c ps c')
      (enough : ps.length ≤ c.rest.length) :
      TakesOpened inner start c .template
        (.template (.over (start.merge c'.last) (Part.embeds ps)) ps) c'
  | unary {op : UnaryOp} {c' : Cursor} {t : Tree}
      (reads : inner Power.unaryOperand c = .ok (t, c')) :
      TakesOpened inner start c (.unary op) (.unary (.over (start.merge c'.last) [t]) op t) c'

/-- A literal, a name, or what an opening operator starts. -/
inductive TakesOperand (d : Dialect) (limit : Nat) (inner : Nat → Step Tree) :
    Cursor → Tree → Cursor → Prop
  | literal {s : Span} {t : Token} {rest : List Token} (isLiteral : t.kind = .literal) :
      TakesOperand d limit inner ⟨s, t :: rest⟩
        (.literal (.over t.span []) t.text (t.value.getD .empty)) ⟨t.span, rest⟩
  | name {s : Span} {t : Token} {rest : List Token} (isName : t.kind = .identifier) :
      TakesOperand d limit inner ⟨s, t :: rest⟩ (resolve d t.text t.span) ⟨t.span, rest⟩
  | opened {s : Span} {o : Token} {rest : List Token} {rule : OpeningRule} {t : Tree}
      {c' : Cursor} (isOperator : o.kind = .operator) (found : d.opening[o.text]? = some rule)
      (taken : TakesOpened inner o.span ⟨o.span, rest⟩ rule t c') (within : t.depth ≤ limit) :
      TakesOperand d limit inner ⟨s, o :: rest⟩ t c'

/-- What an operator takes behind `left`, rule by rule. -/
inductive TakesFollowed (inner : Nat → Step Tree) (left : Tree) (power : Power) (c : Cursor) :
    FollowingRule → Tree → Cursor → Prop
  | binary {op : BinaryOp} {right : Tree} {c' : Cursor}
      (reads : inner power.right c = .ok (right, c')) :
      TakesFollowed inner left power c (.binary op)
        (.binary (.over (left.span.merge c'.last) [left, right]) op left right) c'
  | assign {op : AssignOp} {value : Tree} {c' : Cursor}
      (reads : inner power.right c = .ok (value, c')) :
      TakesFollowed inner left power c (.assign op)
        (.assign (.over (left.span.merge c'.last) [left, value]) op left value) c'
  | step {op : StepOp} :
      TakesFollowed inner left power c (.step op)
        (.step (.over (left.span.merge c.last) [left]) op left) c
  | access {s : String} {c' : Cursor} (named : identifier c = .ok (s, c')) :
      TakesFollowed inner left power c .access
        (.member (.over (left.span.merge c'.last) [left]) left (.named s)) c'
  | lookup {key : Tree} {c₁ c' : Cursor} (reads : inner Power.loosest c = .ok (key, c₁))
      (closes : demand "]" c₁ = .ok c') :
      TakesFollowed inner left power c .lookup
        (.member (.over (left.span.merge c'.last) [left, key]) left (.keyed key)) c'
  | invoke (isClose : c.isAt ")" = true) :
      TakesFollowed inner left power c .call
        (.call (.over (left.span.merge c.next.last) [left]) left []) c.next
  | call {args : List Tree} {c' : Cursor} (notClose : ¬ c.isAt ")" = true)
      (arguments : TakesArguments inner c args c') (enough : args.length ≤ c.rest.length + 1) :
      TakesFollowed inner left power c .call
        (.call (.over (left.span.merge c'.last) (left :: args)) left args) c'
  | choice {yes no : Tree} {c₁ c₂ c' : Cursor} (readsYes : inner power.right c = .ok (yes, c₁))
      (colon : demand ":" c₁ = .ok c₂) (readsNo : inner Power.choice.right c₂ = .ok (no, c')) :
      TakesFollowed inner left power c .choice
        (.choice (.over (left.span.merge c'.last) [left, yes, no]) left yes no) c'

/-- The operators behind a tree that bind tighter than `min`, up to a bound on their number. -/
inductive TakesChain (d : Dialect) (limit : Nat) (inner : Nat → Step Tree) (min : Nat) :
    Nat → Tree → Cursor → Tree → Cursor → Prop
  | stop {bound : Nat} {left : Tree} {c : Cursor} (ends : Closed d min c.rest ∨ bound = 0) :
      TakesChain d limit inner min bound left c left c
  | step {bound : Nat} {left left' t : Tree} {c c₁ c' : Cursor} {power : Power}
      {rule : FollowingRule} (found : c.following? d = some (power, rule))
      (tighter : min < power.left) (taken : TakesFollowed inner left power c.next rule left' c₁)
      (within : left'.depth ≤ limit) (others : TakesChain d limit inner min bound left' c₁ t c') :
      TakesChain d limit inner min (bound + 1) left c t c'

/-- A bound on the number of operators is no bound if it is at least the number of tokens. -/
theorem closed_of_stop {d : Dialect} {min bound : Nat} {c : Cursor}
    (ends : Closed d min c.rest ∨ bound = 0) (enough : c.rest.length ≤ bound) :
    Closed d min c.rest := by
  rcases ends with closed | rfl
  · exact closed
  · rw [List.eq_nil_of_length_eq_zero (Nat.le_zero.mp enough)]
    rintro p rule ⟨⟩

section Functions

variable {d : Dialect} {limit : Nat} {inner : Nat → Step Tree} {c c' : Cursor}

theorem part_eq_ok_iff {p : Part} : part inner c = .ok (p, c') ↔ TakesPart inner c p c' := by
  constructor
  · intro succeeds
    obtain ⟨s, _ | ⟨t, rest⟩⟩ := c
    · cases succeeds
    · unfold part at succeeds
      dsimp only at succeeds
      split at succeeds
      · next isText =>
        cases succeeds
        exact .text isText
      · next isOperator =>
        split at succeeds
        · next isOpen =>
          obtain ⟨⟨tree, c₁⟩, reads, more⟩ := bind_eq_ok_iff.mp succeeds
          obtain ⟨c₂, closes, same⟩ := bind_eq_ok_iff.mp more
          cases pure_eq_ok_iff.mp same
          exact .embed (Token.isOperator_iff.mpr ⟨isOperator, isOpen⟩) reads closes
        · cases succeeds
      · cases succeeds
  · rintro (isText | ⟨isOpen, reads, closes⟩)
    · simp only [part, isText]
      rfl
    · obtain ⟨isOperator, isOpen⟩ := Token.isOperator_iff.mp isOpen
      simp only [part, isOperator, if_pos isOpen]
      exact bind_eq_ok_iff.mpr ⟨_, reads, bind_eq_ok_iff.mpr ⟨_, closes, rfl⟩⟩

theorem parts_eq_ok_iff {bound : Nat} {ps : List Part} :
    parts inner bound c = .ok (ps, c') ↔ TakesParts inner c ps c' ∧ ps.length ≤ bound := by
  induction bound generalizing c ps with
  | zero =>
    unfold parts
    constructor
    · intro succeeds
      split at succeeds
      · next isClose =>
        cases succeeds
        exact ⟨.close isClose, Nat.le_refl _⟩
      · cases succeeds
    · rintro ⟨isClose | _, few⟩
      · exact if_pos isClose
      · cases few
  | succ bound inductionHypothesis =>
    unfold parts
    constructor
    · intro succeeds
      split at succeeds
      · next isClose =>
        cases succeeds
        exact ⟨.close isClose, Nat.zero_le _⟩
      · next notClose =>
        obtain ⟨⟨p, c₁⟩, first, more⟩ := bind_eq_ok_iff.mp succeeds
        obtain ⟨⟨ps, c₂⟩, others, same⟩ := bind_eq_ok_iff.mp more
        cases pure_eq_ok_iff.mp same
        obtain ⟨others, few⟩ := inductionHypothesis.mp others
        exact ⟨.more notClose (part_eq_ok_iff.mp first) others, Nat.succ_le_succ few⟩
    · rintro ⟨isClose | ⟨notClose, first, others⟩, few⟩
      · exact if_pos isClose
      · rw [if_neg notClose]
        have others := inductionHypothesis.mpr ⟨others, Nat.le_of_succ_le_succ few⟩
        exact bind_eq_ok_iff.mpr ⟨_, part_eq_ok_iff.mpr first,
          bind_eq_ok_iff.mpr ⟨_, others, rfl⟩⟩

theorem allParts_eq_ok_iff {bound : Nat} {ps : List Part} :
    allParts inner bound c = .ok (ps, c') ↔ TakesAllParts inner bound c ps c' := by
  induction bound generalizing c ps with
  | zero =>
    unfold allParts
    rw [ite_self]
    constructor
    · rintro ⟨⟩
      exact .stop (.inr rfl)
    · rintro ⟨⟩
      rfl
  | succ bound inductionHypothesis =>
    unfold allParts
    simp only [List.isEmpty_iff]
    constructor
    · intro succeeds
      split at succeeds
      · next empty =>
        cases succeeds
        exact .stop (.inl empty)
      · next nonempty =>
        obtain ⟨⟨p, c₁⟩, first, more⟩ := bind_eq_ok_iff.mp succeeds
        obtain ⟨⟨ps, c₂⟩, others, same⟩ := bind_eq_ok_iff.mp more
        cases pure_eq_ok_iff.mp same
        exact .more nonempty (part_eq_ok_iff.mp first) (inductionHypothesis.mp others)
    · rintro (empty | ⟨nonempty, first, others⟩)
      · exact if_pos (empty.resolve_right (Nat.succ_ne_zero bound))
      · rw [if_neg nonempty]
        exact bind_eq_ok_iff.mpr ⟨_, part_eq_ok_iff.mpr first,
          bind_eq_ok_iff.mpr ⟨_, inductionHypothesis.mpr others, rfl⟩⟩

theorem closing_eq_ok_iff {t : Tree} {ts : List Tree} :
    (do let c ← demand ")" c; return ([t], c)) = Except.ok (ts, c') ↔
      demand ")" c = .ok c' ∧ ts = [t] := by
  simp only [bind_eq_ok_iff, pure_eq_ok_iff, Prod.mk.injEq]
  constructor
  · rintro ⟨_, closes, rfl, rfl⟩
    exact ⟨closes, rfl⟩
  · rintro ⟨closes, rfl⟩
    exact ⟨_, closes, rfl, rfl⟩

theorem arguments_eq_ok_iff {bound : Nat} {ts : List Tree} :
    arguments inner bound c = .ok (ts, c') ↔
      TakesArguments inner c ts c' ∧ ts.length ≤ bound + 1 := by
  constructor
  · intro succeeds
    induction bound generalizing c ts with
    | zero =>
      unfold arguments at succeeds
      obtain ⟨⟨t, c₁⟩, reads, more⟩ := bind_eq_ok_iff.mp succeeds
      dsimp only at more
      split at more
      · cases more
      · next notMore =>
        obtain ⟨closes, rfl⟩ := closing_eq_ok_iff.mp more
        exact ⟨.last reads notMore closes, Nat.le_refl _⟩
    | succ bound inductionHypothesis =>
      unfold arguments at succeeds
      obtain ⟨⟨t, c₁⟩, reads, more⟩ := bind_eq_ok_iff.mp succeeds
      dsimp only at more
      split at more
      · next isMore =>
        obtain ⟨⟨ts, c₂⟩, others, same⟩ := bind_eq_ok_iff.mp more
        cases pure_eq_ok_iff.mp same
        obtain ⟨others, few⟩ := inductionHypothesis others
        exact ⟨.more reads isMore others, Nat.succ_le_succ few⟩
      · next notMore =>
        obtain ⟨closes, rfl⟩ := closing_eq_ok_iff.mp more
        exact ⟨.last reads notMore closes, Nat.le_add_left ..⟩
  · rintro ⟨taken, few⟩
    induction taken generalizing bound with
    | last reads notMore closes =>
      unfold arguments
      refine bind_eq_ok_iff.mpr ⟨_, reads, ?_⟩
      dsimp only
      rw [if_neg notMore]
      exact closing_eq_ok_iff.mpr ⟨closes, rfl⟩
    | more reads isMore others inductionHypothesis =>
      have positive : 0 < bound := by
        cases others <;> simp only [List.length_cons] at few <;> omega
      obtain ⟨bound, rfl⟩ := Nat.exists_eq_succ_of_ne_zero (Nat.ne_of_gt positive)
      unfold arguments
      refine bind_eq_ok_iff.mpr ⟨_, reads, ?_⟩
      dsimp only
      rw [if_pos isMore]
      have others := inductionHypothesis (Nat.le_of_succ_le_succ few)
      exact bind_eq_ok_iff.mpr ⟨_, others, rfl⟩

theorem opened_eq_ok_iff {start : Span} {rule : OpeningRule} {t : Tree} :
    opened limit inner start rule c = .ok (t, c') ↔
      t.depth ≤ limit ∧ TakesOpened inner start c rule t c' := by
  constructor
  · intro succeeds
    cases rule with
    | group =>
      obtain ⟨⟨u, c₁⟩, reads, more⟩ := bind_eq_ok_iff.mp succeeds
      obtain ⟨c₂, closes, made⟩ := bind_eq_ok_iff.mp more
      obtain ⟨within, rfl, rfl⟩ := node_eq_ok_iff.mp made
      exact ⟨within, .group reads closes⟩
    | template =>
      obtain ⟨⟨ps, c₁⟩, parts, made⟩ := bind_eq_ok_iff.mp succeeds
      obtain ⟨within, rfl, rfl⟩ := node_eq_ok_iff.mp made
      obtain ⟨parts, enough⟩ := parts_eq_ok_iff.mp parts
      exact ⟨within, .template parts enough⟩
    | unary op =>
      obtain ⟨⟨u, c₁⟩, reads, made⟩ := bind_eq_ok_iff.mp succeeds
      obtain ⟨within, rfl, rfl⟩ := node_eq_ok_iff.mp made
      exact ⟨within, .unary reads⟩
  · rintro ⟨within, taken⟩
    have made := node_eq_ok_iff.mpr ⟨within, rfl, (rfl : c' = c')⟩
    cases taken with
    | group reads closes =>
      exact bind_eq_ok_iff.mpr ⟨_, reads, bind_eq_ok_iff.mpr ⟨_, closes, made⟩⟩
    | template parts enough =>
      exact bind_eq_ok_iff.mpr ⟨_, parts_eq_ok_iff.mpr ⟨parts, enough⟩, made⟩
    | unary reads => exact bind_eq_ok_iff.mpr ⟨_, reads, made⟩

theorem operand_eq_ok_iff {t : Tree} :
    operand d limit inner c = .ok (t, c') ↔ TakesOperand d limit inner c t c' := by
  constructor
  · intro succeeds
    obtain ⟨s, _ | ⟨o, rest⟩⟩ := c
    · cases succeeds
    · unfold operand at succeeds
      dsimp only at succeeds
      split at succeeds
      · next isLiteral =>
        cases succeeds
        exact .literal isLiteral
      · next isName =>
        cases succeeds
        exact .name isName
      · next isOperator =>
        split at succeeds
        · next rule found =>
          obtain ⟨within, taken⟩ := opened_eq_ok_iff.mp succeeds
          exact .opened isOperator found taken within
        · cases succeeds
      · cases succeeds
  · rintro (isLiteral | isName | ⟨isOperator, found, taken, within⟩)
    · simp only [operand, isLiteral, Cursor.next]
    · simp only [operand, isName, Cursor.next]
    · simp only [operand, isOperator, found]
      exact opened_eq_ok_iff.mpr ⟨within, taken⟩

theorem followed_eq_ok_iff {left t : Tree} {power : Power} {rule : FollowingRule} :
    followed limit inner left power rule c = .ok (t, c') ↔
      t.depth ≤ limit ∧ TakesFollowed inner left power c rule t c' := by
  constructor
  · intro succeeds
    cases rule with
    | binary op =>
      obtain ⟨⟨right, c₁⟩, reads, made⟩ := bind_eq_ok_iff.mp succeeds
      obtain ⟨within, rfl, rfl⟩ := node_eq_ok_iff.mp made
      exact ⟨within, .binary reads⟩
    | assign op =>
      obtain ⟨⟨value, c₁⟩, reads, made⟩ := bind_eq_ok_iff.mp succeeds
      obtain ⟨within, rfl, rfl⟩ := node_eq_ok_iff.mp made
      exact ⟨within, .assign reads⟩
    | step op =>
      obtain ⟨within, rfl, rfl⟩ := node_eq_ok_iff.mp succeeds
      exact ⟨within, .step⟩
    | access =>
      obtain ⟨⟨s, c₁⟩, named, made⟩ := bind_eq_ok_iff.mp succeeds
      obtain ⟨within, rfl, rfl⟩ := node_eq_ok_iff.mp made
      exact ⟨within, .access named⟩
    | lookup =>
      obtain ⟨⟨key, c₁⟩, reads, more⟩ := bind_eq_ok_iff.mp succeeds
      obtain ⟨c₂, closes, made⟩ := bind_eq_ok_iff.mp more
      obtain ⟨within, rfl, rfl⟩ := node_eq_ok_iff.mp made
      exact ⟨within, .lookup reads closes⟩
    | call =>
      rw [followed] at succeeds
      split at succeeds
      · next isClose =>
        obtain ⟨within, rfl, rfl⟩ := node_eq_ok_iff.mp succeeds
        exact ⟨within, .invoke isClose⟩
      · next notClose =>
        obtain ⟨⟨args, c₁⟩, reads, made⟩ := bind_eq_ok_iff.mp succeeds
        obtain ⟨within, rfl, rfl⟩ := node_eq_ok_iff.mp made
        obtain ⟨taken, enough⟩ := arguments_eq_ok_iff.mp reads
        exact ⟨within, .call notClose taken enough⟩
    | choice =>
      obtain ⟨⟨yes, c₁⟩, readsYes, more⟩ := bind_eq_ok_iff.mp succeeds
      obtain ⟨c₂, colon, more⟩ := bind_eq_ok_iff.mp more
      obtain ⟨⟨no, c₃⟩, readsNo, made⟩ := bind_eq_ok_iff.mp more
      obtain ⟨within, rfl, rfl⟩ := node_eq_ok_iff.mp made
      exact ⟨within, .choice readsYes colon readsNo⟩
  · rintro ⟨within, taken⟩
    have made {c : Cursor} := node_eq_ok_iff.mpr ⟨within, rfl, (rfl : c = c)⟩
    cases taken with
    | binary reads | assign reads => exact bind_eq_ok_iff.mpr ⟨_, reads, made⟩
    | step => exact made
    | access named => exact bind_eq_ok_iff.mpr ⟨_, named, made⟩
    | lookup reads closes =>
      exact bind_eq_ok_iff.mpr ⟨_, reads, bind_eq_ok_iff.mpr ⟨_, closes, made⟩⟩
    | invoke isClose =>
      rw [followed, if_pos isClose]
      exact made
    | call notClose arguments enough =>
      rw [followed, if_neg notClose]
      exact bind_eq_ok_iff.mpr ⟨_, arguments_eq_ok_iff.mpr ⟨arguments, enough⟩, made⟩
    | choice readsYes colon readsNo =>
      exact bind_eq_ok_iff.mpr ⟨_, readsYes, bind_eq_ok_iff.mpr ⟨_, colon,
        bind_eq_ok_iff.mpr ⟨_, readsNo, made⟩⟩⟩

theorem chain_zero {min : Nat} (left : Tree) (c : Cursor) :
    chain d limit inner min 0 left c = .ok (left, c) := by
  unfold chain
  split
  · rfl
  · split <;> rfl

theorem chain_eq_ok_iff {min bound : Nat} {left t : Tree} :
    chain d limit inner min bound left c = .ok (t, c') ↔
      TakesChain d limit inner min bound left c t c' := by
  constructor
  · intro succeeds
    induction bound generalizing left c with
    | zero =>
      rw [chain_zero] at succeeds
      cases succeeds
      exact .stop (.inr rfl)
    | succ bound inductionHypothesis =>
      unfold chain at succeeds
      split at succeeds
      · next unfollowed =>
        cases succeeds
        exact .stop (.inl fun p rule found => by cases unfollowed.symm.trans found)
      · next power rule found =>
        split at succeeds
        · next looser =>
          cases succeeds
          refine .stop (.inl fun p rule' found' => ?_)
          cases found.symm.trans found'
          exact looser
        · next tighter =>
          obtain ⟨⟨left', c₁⟩, follows, others⟩ := bind_eq_ok_iff.mp succeeds
          obtain ⟨within, taken⟩ := followed_eq_ok_iff.mp follows
          exact .step found (Nat.lt_of_not_le tighter) taken within (inductionHypothesis others)
  · intro taken
    induction taken with
    | stop ends =>
      rcases ends with closed | rfl
      · exact chain_of_closed closed
      · exact chain_zero _ _
    | step found tighter taken within others inductionHypothesis =>
      unfold chain
      rw [found]
      dsimp only
      rw [if_neg (Nat.not_le_of_lt tighter)]
      exact bind_eq_ok_iff.mpr ⟨_, followed_eq_ok_iff.mpr ⟨within, taken⟩, inductionHypothesis⟩

end Functions

end Formulae.Parser
