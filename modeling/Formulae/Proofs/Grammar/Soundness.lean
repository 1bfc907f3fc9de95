import Formulae.Proofs.Grammar.Reading

/-!
What is parsed has a derivation.

A phrase that has been read grows by the operators behind it: each finds its operand in
the phrase, since the phrase is closed to everything that its last operand would take.
-/

namespace Formulae

open Formulae.Parser

variable {assigning : Bool} {d : Dialect} {limit : Nat}

/-- A phrase of a tree whose tokens stand between two cursors. -/
structure Derivation.Between (d : Dialect) {l : Level} (k : Derivation assigning l) (c : Cursor)
    (t : Tree) (c' : Cursor) : Prop where
  tokens : c.rest = k.tokens ++ c'.rest
  last : c'.last = k.last.span
  tree : k.tree d = t

/-- A phrase of a level is one of each looser level. -/
theorem Derivation.loosen {l m : Level} (k : Derivation assigning l) (looser : m.rank ≤ l.rank) :
    ∃ k' : Derivation assigning m,
      k'.tokens = k.tokens ∧ k'.last = k.last ∧ ∀ d, k'.tree d = k.tree d := by
  by_cases same : m = l
  · subst same
    exact ⟨k, rfl, rfl, fun _ => rfl⟩
  · have strict : m.rank < l.rank :=
      Nat.lt_of_le_of_ne looser fun equal => same (Level.rank_injective equal)
    have loose : m ≠ .primary := by
      rintro rfl
      cases l <;> simp [Level.rank] at strict
    have nearer := Level.rank_next loose
    obtain ⟨inner, tokens, last, tree⟩ := k.loosen (m := m.next) (by omega)
    exact ⟨.lift loose inner, tokens, last, tree⟩
termination_by l.rank - m.rank

theorem Derivation.Between.loosen {l m : Level} {k : Derivation assigning l} {c c' : Cursor}
    {t : Tree} (between : k.Between d c t c') (looser : m.rank ≤ l.rank) :
    ∃ k' : Derivation assigning m, k'.Between d c t c' := by
  obtain ⟨k', tokens, last, tree⟩ := k.loosen looser
  exact ⟨k', by rw [tokens]; exact between.tokens, by rw [last]; exact between.last,
    (tree d).trans between.tree⟩

/-- What is read at a power is a phrase of it, up to an operator that does not continue it. -/
def Sound (d : Dialect) (assigning : Bool) (inner : Nat → Step Tree) : Prop :=
  ∀ min c t c', inner min c = .ok (t, c') →
    ∃ k : Derivation assigning (.ofPower min), k.Between d c t c' ∧ Closed d min c'.rest

section Rules

variable {inner : Nat → Step Tree}

theorem Sound.phrase (sound : Sound d assigning inner) {min : Nat} {c c' : Cursor} {t : Tree}
    (reads : inner min c = .ok (t, c')) {l : Level} (level : .ofPower min = l) :
    ∃ k : Derivation assigning l, c.rest = k.tokens ++ c'.rest ∧ c'.last = k.last.span ∧
      k.tree d = t ∧ Closed d min c'.rest := by
  subst level
  obtain ⟨k, ⟨tokens, last, tree⟩, closed⟩ := sound _ _ _ _ reads
  exact ⟨k, tokens, last, tree, closed⟩

theorem Sound.loosest (sound : Sound d assigning inner) {c c' : Cursor} {t : Tree}
    (reads : inner Power.loosest c = .ok (t, c')) :
    ∃ k : Derivation assigning .assignment, k.Between d c t c' := by
  obtain ⟨k, tokens, last, tree, _⟩ := sound.phrase reads rfl
  exact ⟨k, tokens, last, tree⟩

/-- Arguments, and the parenthesis that closes them. -/
def Arguments.Between (d : Dialect) (args : Arguments assigning) (c : Cursor) (ts : List Tree)
    (c' : Cursor) : Prop :=
  args.trees d = ts ∧ ∃ o : Token, c.rest = args.tokens ++ o :: c'.rest ∧
    o.isOperator ")" = true ∧ c'.last = o.span

/-- Fragments, and the backtick that closes them. -/
def Fragments.Between (d : Dialect) (fragments : Fragments assigning) (c : Cursor)
    (ps : List Part) (c' : Cursor) : Prop :=
  fragments.parts d = ps ∧ ∃ o : Token, c.rest = fragments.tokens ++ o :: c'.rest ∧
    o.isOperator "\x60" = true ∧ c'.last = o.span

theorem Sound.arguments (sound : Sound d assigning inner) {c c' : Cursor} {ts : List Tree}
    (taken : TakesArguments inner c ts c') :
    ∃ args : Arguments assigning, args.Between d c ts c' := by
  induction taken with
  | last reads _ closes =>
    obtain ⟨k, between⟩ := sound.loosest reads
    obtain ⟨o, rest, isClose, last⟩ := demand_eq_ok_iff.mp closes
    refine ⟨.one k, by rw [Arguments.trees, between.tree], o, ?_, isClose, last⟩
    rw [between.tokens, rest, Arguments.tokens]
  | more reads isMore _ inductionHypothesis =>
    obtain ⟨k, between⟩ := sound.loosest reads
    obtain ⟨args, trees, o, rest, isClose, last⟩ := inductionHypothesis
    obtain ⟨comma, isComma, after, _⟩ := Cursor.isAt_iff.mp isMore
    refine ⟨.more k comma isComma args, ?_, o, ?_, isClose, last⟩
    · rw [Arguments.trees, between.tree, trees]
    · rw [between.tokens, after, rest, Arguments.tokens, List.append_assoc, List.cons_append]

/-- The tokens of a part, in front of any fragments behind it. -/
theorem Sound.part (sound : Sound d assigning inner) {c c' : Cursor} {p : Part}
    (taken : TakesPart inner c p c') :
    ∃ front : List Token, front ≠ [] ∧ c.rest = front ++ c'.rest ∧
      ∀ others : Fragments assigning, ∃ fragments : Fragments assigning,
        fragments.parts d = p :: others.parts d ∧ fragments.tokens = front ++ others.tokens := by
  cases taken with
  | text isText => exact ⟨[_], by simp, rfl, fun others => ⟨.text _ isText others, rfl, rfl⟩⟩
  | @embed _ o _ _ _ _ isOpen reads closes =>
    obtain ⟨k, between⟩ := sound.loosest reads
    obtain ⟨e, afterInner, isEnd, _⟩ := demand_eq_ok_iff.mp closes
    refine ⟨o :: (k.tokens ++ [e]), by simp, ?_, fun others =>
      ⟨.embed o isOpen k e isEnd others, by rw [Fragments.parts, between.tree], by simp⟩⟩
    have tokens := between.tokens
    dsimp only at tokens
    rw [tokens, afterInner]
    simp

theorem Sound.parts (sound : Sound d assigning inner) {c c' : Cursor} {ps : List Part}
    (taken : TakesParts inner c ps c') :
    ∃ fragments : Fragments assigning, fragments.Between d c ps c' := by
  induction taken with
  | close isClose =>
    obtain ⟨o, isClose, rest, last⟩ := Cursor.isAt_iff.mp isClose
    exact ⟨.nil, rfl, o, rest, isClose, last⟩
  | more _ first _ inductionHypothesis =>
    obtain ⟨others, parts, o, rest, isClose, last⟩ := inductionHypothesis
    obtain ⟨front, _, before, extend⟩ := sound.part first
    obtain ⟨fragments, parts', tokens⟩ := extend others
    refine ⟨fragments, by rw [parts', parts], o, ?_, isClose, last⟩
    rw [before, rest, tokens, List.append_assoc]

/-- The parts of a bare template take all tokens. -/
theorem Sound.allParts (sound : Sound d assigning inner) {bound : Nat} {c c' : Cursor}
    (enough : c.rest.length ≤ bound) {ps : List Part} (taken : TakesAllParts inner bound c ps c') :
    ∃ fragments : Fragments assigning, fragments.parts d = ps ∧ fragments.tokens = c.rest := by
  induction taken with
  | stop ends =>
    have empty := ends.elim id fun none => List.eq_nil_of_length_eq_zero (by omega)
    exact ⟨.nil, rfl, empty.symm⟩
  | more _ first _ inductionHypothesis =>
    obtain ⟨front, taken, before, extend⟩ := sound.part first
    have positive := List.length_pos_iff.mpr taken
    rw [before, List.length_append] at enough
    obtain ⟨others, parts, rest⟩ := inductionHypothesis (by omega)
    obtain ⟨fragments, parts', tokens⟩ := extend others
    exact ⟨fragments, by rw [parts', parts], by rw [tokens, rest, before]⟩

/-- No operator continues the operand of a suffix but by standing behind it. -/
theorem closed_tightest (standard : d.Standard assigning) (rest : List Token) :
    Closed d Power.member.left rest := by
  intro p rule found
  obtain _ | ⟨o, rest⟩ := rest
  · cases found
  · obtain ⟨_, rfl, _⟩ := (following?_eq_some_iff standard).mp found
    exact rule.power_le_member

theorem Sound.opened (standard : d.Standard assigning) (sound : Sound d assigning inner)
    {rule : OpeningRule} {s : Span} {o : Token} {c c' : Cursor} {t : Tree}
    (isOp : o.isOperator rule.symbol = true) (taken : TakesOpened inner o.span c rule t c') :
    ∃ (l : Level) (k : Derivation assigning l), Level.unary.rank ≤ l.rank ∧
      k.Between d ⟨s, o :: c.rest⟩ t c' ∧ Closed d l.power.right c'.rest := by
  cases taken with
  | group reads closes =>
    obtain ⟨k, tokens, _, rfl⟩ := sound.loosest reads
    obtain ⟨e, rest, isClose, last⟩ := demand_eq_ok_iff.mp closes
    refine ⟨.primary, .group o isOp k e isClose, by decide, ⟨?_, last, ?_⟩,
      closed_tightest standard _⟩
    · simp [Derivation.tokens, tokens, rest]
    · simp [Derivation.tree, last]
  | template parts =>
    obtain ⟨fragments, rfl, e, rest, isClose, last⟩ := sound.parts parts
    refine ⟨.primary, .template o isOp fragments e isClose, by decide, ⟨?_, last, ?_⟩,
      closed_tightest standard _⟩
    · simp [Derivation.tokens, rest]
    · simp [Derivation.tree, last]
  | unary reads =>
    obtain ⟨k, tokens, last, rfl, closed⟩ := sound.phrase reads (l := .unary) rfl
    refine ⟨.unary, .unary _ o isOp k, Nat.le_refl _, ⟨?_, last, ?_⟩, closed⟩
    · simp [Derivation.tokens, tokens]
    · simp [Derivation.tree, last]

theorem Sound.operand (standard : d.Standard assigning) (sound : Sound d assigning inner)
    {c c' : Cursor} {t : Tree} (taken : TakesOperand d limit inner c t c') :
    ∃ (l : Level) (k : Derivation assigning l), Level.unary.rank ≤ l.rank ∧ k.Between d c t c' ∧
      Closed d l.power.right c'.rest := by
  cases taken with
  | literal isLiteral =>
    exact ⟨_, .literal _ isLiteral, by decide, ⟨rfl, rfl, rfl⟩, closed_tightest standard _⟩
  | name isName =>
    exact ⟨_, .name _ isName, by decide, ⟨rfl, rfl, rfl⟩, closed_tightest standard _⟩
  | opened isOperator found taken =>
    have isOp := Token.isOperator_iff.mpr ⟨isOperator, ((standard.opening _ _).mp found).symm⟩
    exact sound.opened standard isOp taken

/-- What an operator makes of the phrase in front of it, and of what it reads itself. -/
theorem Sound.followed (standard : d.Standard assigning) (sound : Sound d assigning inner)
    {rule : FollowingRule} {o : Token} (isOp : o.isOperator rule.symbol = true)
    (allowed : rule.isAssign = true → assigning = true) {l : Level} {left : Derivation assigning l}
    (isOperand : rule.operand = l) {c₀ c c' : Cursor} {t : Tree}
    (front : c₀.rest = left.tokens ++ o :: c.rest) (last : c.last = o.span)
    (taken : TakesFollowed inner (left.tree d) rule.power c rule t c') :
    ∃ (m : Level) (k : Derivation assigning m), m = rule.result ∧ k.Between d c₀ t c' ∧
      Closed d m.power.right c'.rest ∧ left.tokens.length < k.tokens.length := by
  cases taken with
  | @binary op _ _ reads =>
    by_cases exponent : op = .exponent
    · subst exponent
      obtain rfl : .unary = l := isOperand
      obtain ⟨k, tokens, last, rfl, closed⟩ := sound.phrase reads (l := .exponentiation) rfl
      refine ⟨.exponentiation, .exponent left o isOp k, rfl, ⟨?_, last, ?_⟩, closed, ?_⟩
      · simp [Derivation.tokens, front, tokens]
      · simp [Derivation.tree, last]
      · simp [Derivation.tokens]
    · obtain ⟨operand, chains, right⟩ := FollowingRule.operand_of_chain exponent
      rw [operand] at isOperand
      obtain ⟨k, tokens, last, rfl, closed⟩ := sound.phrase reads (right.trans (by rw [isOperand]))
      refine ⟨l, .chain op isOperand (isOperand ▸ chains) left o isOp k, isOperand.symm,
        ⟨?_, last, ?_⟩, ?_, ?_⟩
      · simp [Derivation.tokens, front, tokens]
      · simp [Derivation.tree, last]
      · rw [← isOperand]
        exact closed
      · simp [Derivation.tokens]
  | assign reads =>
    obtain rfl : .choice = l := isOperand
    obtain ⟨k, tokens, last, rfl, closed⟩ := sound.phrase reads (l := .assignment) rfl
    refine ⟨.assignment, .assign _ (allowed rfl) left o isOp k, rfl, ⟨?_, last, ?_⟩, closed, ?_⟩
    · simp [Derivation.tokens, front, tokens]
    · simp [Derivation.tree, last]
    · simp [Derivation.tokens]
  | step =>
    obtain rfl : .suffixed = l := isOperand
    refine ⟨.suffixed, .step _ left o isOp, rfl, ⟨?_, last, ?_⟩, closed_tightest standard _, ?_⟩
    · simp [Derivation.tokens, front]
    · simp [Derivation.tree, last]
    · simp [Derivation.tokens]
  | access named =>
    obtain rfl : .suffixed = l := isOperand
    obtain ⟨field, rest, isName, rfl, last⟩ := identifier_eq_ok_iff.mp named
    refine ⟨.suffixed, .access left o isOp field isName, rfl, ⟨?_, last, ?_⟩,
      closed_tightest standard _, ?_⟩
    · simp [Derivation.tokens, front, rest]
    · simp [Derivation.tree, last]
    · simp [Derivation.tokens]
  | lookup reads closes =>
    obtain rfl : .suffixed = l := isOperand
    obtain ⟨k, tokens, _, rfl⟩ := sound.loosest reads
    obtain ⟨e, rest, isClose, last⟩ := demand_eq_ok_iff.mp closes
    refine ⟨.suffixed, .lookup left o isOp k e isClose, rfl, ⟨?_, last, ?_⟩,
      closed_tightest standard _, ?_⟩
    · simp [Derivation.tokens, front, tokens, rest]
    · simp [Derivation.tree, last]
    · simp [Derivation.tokens]
  | invoke isClose =>
    obtain rfl : .suffixed = l := isOperand
    obtain ⟨e, isClose, rest, last⟩ := Cursor.isAt_iff.mp isClose
    refine ⟨.suffixed, .invoke left o isOp e isClose, rfl, ⟨?_, last, ?_⟩,
      closed_tightest standard _, ?_⟩
    · rw [front, rest]
      simp [Derivation.tokens]
    · simp [Derivation.tree, last]
    · simp [Derivation.tokens]
  | call _ arguments =>
    obtain rfl : .suffixed = l := isOperand
    obtain ⟨args, rfl, e, rest, isClose, last⟩ := sound.arguments arguments
    refine ⟨.suffixed, .call left o isOp args e isClose, rfl, ⟨?_, last, ?_⟩,
      closed_tightest standard _, ?_⟩
    · simp [Derivation.tokens, front, rest]
    · simp [Derivation.tree, last]
    · simp [Derivation.tokens]
  | choice readsYes colon readsNo =>
    obtain rfl : .disjunction = l := isOperand
    obtain ⟨k, tokens, _, rfl, _⟩ := sound.phrase readsYes (l := .choice) rfl
    obtain ⟨e, rest, isColon, _⟩ := demand_eq_ok_iff.mp colon
    obtain ⟨k', tokens', last, rfl, closed⟩ := sound.phrase readsNo (l := .choice) rfl
    refine ⟨.choice, .choice left o isOp k e isColon k', rfl, ⟨?_, last, ?_⟩, closed, ?_⟩
    · simp [Derivation.tokens, front, tokens, rest, tokens']
    · simp [Derivation.tree, last]
    · simp [Derivation.tokens]

/-- The operators behind a phrase make a phrase of the power at which they are taken. -/
theorem Sound.chain (standard : d.Standard assigning) (sound : Sound d assigning inner)
    {min bound : Nat} {l : Level} {left : Derivation assigning l} {c₀ c c' : Cursor} {t u : Tree}
    (between : left.Between d c₀ t c) (tighter : (Level.ofPower min).rank ≤ l.rank)
    (closed : Closed d l.power.right c.rest) (enough : c.rest.length ≤ bound)
    (taken : TakesChain d limit inner min bound t c u c') :
    ∃ k : Derivation assigning (.ofPower min), k.Between d c₀ u c' ∧ Closed d min c'.rest := by
  induction taken generalizing l with
  | stop ends =>
    obtain ⟨k, between⟩ := between.loosen tighter
    exact ⟨k, between, closed_of_stop ends enough⟩
  | @step bound _ _ _ c c₁ _ _ rule found taken follows _ _ inductionHypothesis =>
    obtain ⟨s, _ | ⟨o, after⟩⟩ := c
    · cases found
    obtain ⟨isOp, rfl, allowed⟩ := (following?_eq_some_iff standard).mp found
    obtain ⟨operand, between⟩ := between.loosen (FollowingRule.operand_le (closed _ _ found))
    obtain ⟨rfl⟩ := between.tree
    obtain ⟨m, k, isResult, between', closed', longer⟩ :=
      sound.followed standard isOp allowed rfl between.tokens rfl follows
    have lengths := congrArg List.length (between'.tokens.symm.trans between.tokens)
    have shorter : c₁.rest.length ≤ bound := by
      simp only [List.length_append, List.length_cons] at lengths enough
      omega
    refine inductionHypothesis between' ?_ closed' shorter
    rw [isResult]
    exact FollowingRule.ofPower_le_result taken

end Rules

/-- Expressions are read soundly, however many may be open inside one another. -/
theorem sound_expression (standard : d.Standard assigning) (room : Nat) :
    Sound d assigning (expression d limit room) := by
  induction room with
  | zero =>
    rintro min c t c' ⟨⟩
  | succ room inductionHypothesis =>
    intro min c t c' reads
    obtain ⟨⟨left, c₁⟩, operand, chain⟩ := bind_eq_ok_iff.mp reads
    obtain ⟨l, k, tight, between, closed⟩ :=
      inductionHypothesis.operand standard (operand_eq_ok_iff.mp operand)
    have tighter := Nat.le_trans (Level.ofPower_le_unary min) tight
    exact inductionHypothesis.chain standard between tighter closed (Nat.le_refl _)
      (chain_eq_ok_iff.mp chain)

end Formulae
