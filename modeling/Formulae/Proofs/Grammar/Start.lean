import Formulae.Proofs.Grammar.Soundness

/-!
Tokens that end too soon.

Where a parser reports that the tokens end, they are the start of a phrase of the level that
is read. What is open can be closed, and what is missing can be a name.
-/

namespace Formulae

open Formulae.Parser

variable {assigning : Bool} {d : Dialect} {limit : Nat}

/-- The tokens can be completed to some others with tokens that mean something. -/
def Token.Completes (ts whole : List Token) : Prop :=
  ∃ others, whole = ts ++ others ∧ ∀ t ∈ others, t.kind.isIgnorable = false

namespace Token.Completes

theorem refl (ts : List Token) : Completes ts ts := ⟨[], by simp, nofun⟩

theorem append_left {ts whole : List Token} (completes : Completes ts whole) (front : List Token) :
    Completes (front ++ ts) (front ++ whole) := by
  obtain ⟨others, rfl, meant⟩ := completes
  exact ⟨others, by simp, meant⟩

theorem cons {ts whole : List Token} (completes : Completes ts whole) (t : Token) :
    Completes (t :: ts) (t :: whole) := completes.append_left [t]

theorem append_right {ts whole back : List Token} (completes : Completes ts whole)
    (meant : ∀ t ∈ back, t.kind.isIgnorable = false) : Completes ts (whole ++ back) := by
  obtain ⟨others, rfl, meant'⟩ := completes
  exact ⟨others ++ back, by simp, List.forall_mem_append.mpr ⟨meant', meant⟩⟩

end Token.Completes

/-- An operator made up to complete some tokens. -/
def Token.ofSymbol (symbol : String) : Token := ⟨.operator, default, symbol, none⟩

theorem Token.isOperator_ofSymbol (symbol : String) :
    (ofSymbol symbol).isOperator symbol = true := by simp [isOperator, ofSymbol]

theorem Token.Completes.close {ts whole : List Token} (completes : Completes ts whole)
    (symbol : String) : Completes ts (whole ++ [.ofSymbol symbol]) :=
  completes.append_right (by simp [Token.ofSymbol, TokenKind.isIgnorable])

/-- A name made up to complete some tokens. -/
def Token.someName : Token := ⟨.identifier, default, "a", none⟩

/-- The tokens are the start of a phrase. -/
def Derivation.Starts (assigning : Bool) (l : Level) (ts : List Token) : Prop :=
  ∃ k : Derivation assigning l, Token.Completes ts k.tokens

/-- The start of the arguments of a call. -/
def Arguments.Starts (assigning : Bool) (ts : List Token) : Prop :=
  ∃ args : Arguments assigning, Token.Completes ts args.tokens

/-- The start of the inside of a template. -/
def Fragments.Starts (assigning : Bool) (ts : List Token) : Prop :=
  ∃ fragments : Fragments assigning, Token.Completes ts fragments.tokens

theorem Derivation.Starts.loosen {l m : Level} {ts : List Token} (starts : Starts assigning l ts)
    (looser : m.rank ≤ l.rank) : Starts assigning m ts := by
  obtain ⟨k, completes⟩ := starts
  obtain ⟨k', tokens, _⟩ := k.loosen looser
  exact ⟨k', by rwa [tokens]⟩

theorem Level.rank_le_primary (l : Level) : l.rank ≤ Level.primary.rank := by
  cases l <;> decide

/-- Without any tokens there is everything to come. -/
theorem Derivation.starts_nil (l : Level) : Starts assigning l [] :=
  Starts.loosen (l := .primary) ⟨.name .someName rfl, [.someName], rfl, by simp [Token.someName,
    TokenKind.isIgnorable]⟩ l.rank_le_primary

/-- A phrase that is read where the tokens end too soon starts with the tokens. -/
def Parser.Viable (assigning : Bool) (inner : Nat → Step Tree) : Prop :=
  ∀ min c, inner min c = .error .unexpectedEnd →
    Derivation.Starts assigning (.ofPower min) c.rest

namespace Parser

theorem bind_eq_error_iff {α β : Type} {x : Except ParseError α} {f : α → Except ParseError β}
    {e : ParseError} : x >>= f = .error e ↔ x = .error e ∨ ∃ a, x = .ok a ∧ f a = .error e := by
  cases x <;> simp [bind, Except.bind]

/-- An operator is missed at the end only if nothing is left. -/
theorem rest_of_demand {symbol : String} {c : Cursor}
    (ends : demand symbol c = .error .unexpectedEnd) : c.rest = [] := by
  obtain ⟨s, _ | ⟨t, rest⟩⟩ := c
  · rfl
  · unfold demand at ends
    split at ends <;> cases ends

theorem rest_of_identifier {c : Cursor} (ends : identifier c = .error .unexpectedEnd) :
    c.rest = [] := by
  obtain ⟨s, _ | ⟨t, rest⟩⟩ := c
  · rfl
  · unfold identifier at ends
    dsimp only at ends
    split at ends <;> cases ends

theorem node_ne_end {limit : Nat} {t : Tree} {c : Cursor} :
    (do let tree ← limited limit t; return (tree, c) : Except ParseError (Tree × Cursor)) ≠
      .error .unexpectedEnd := by
  unfold limited
  split <;> nofun

section Rules

variable {inner : Nat → Step Tree} (sound : Sound d assigning inner)
  (viable : Viable assigning inner)

include viable

theorem Viable.phrase {min : Nat} {c : Cursor} (ends : inner min c = .error .unexpectedEnd)
    {l : Level} (level : .ofPower min = l) : Derivation.Starts assigning l c.rest :=
  level ▸ viable min c ends

include sound

/-- An expression in front of an operator that has to follow, where one of the two is missed. -/
theorem starts_of_enclosed {symbol : String} {c : Cursor} {α : Type}
    {f : Tree × Cursor → Except ParseError α} {g : Tree → Cursor → Except ParseError α}
    (ends : inner Power.loosest c >>= f = .error .unexpectedEnd)
    (encloses : ∀ t c, f (t, c) = demand symbol c >>= g t)
    (made : ∀ t c, g t c ≠ .error .unexpectedEnd) :
    Derivation.Starts assigning .assignment c.rest := by
  rcases bind_eq_error_iff.mp ends with ends | ⟨⟨t, c₁⟩, reads, ends⟩
  · exact viable.phrase ends rfl
  · rw [encloses] at ends
    rcases bind_eq_error_iff.mp ends with ends | ⟨c₂, _, ends⟩
    · obtain ⟨k, tokens, _⟩ := sound.loosest reads
      rw [tokens, rest_of_demand ends, List.append_nil]
      exact ⟨k, .refl _⟩
    · exact absurd ends (made t c₂)

theorem viable_part {c : Cursor} (ends : part inner c = .error .unexpectedEnd) :
    Fragments.Starts assigning c.rest := by
  obtain ⟨s, _ | ⟨t, rest⟩⟩ := c
  · exact ⟨.nil, .refl _⟩
  · unfold part at ends
    dsimp only at ends
    split at ends
    · cases ends
    · next operator =>
      split at ends
      · next opens =>
        obtain ⟨k, completes⟩ := starts_of_enclosed sound viable
          (g := fun tree c => .ok (Part.embed tree, c)) ends (fun _ _ => rfl)
          fun _ _ same => nomatch same
        have isOpen : t.isOperator "\x7b" = true := Token.isOperator_iff.mpr ⟨operator, opens⟩
        refine ⟨.embed t isOpen k (.ofSymbol "\x7d") (Token.isOperator_ofSymbol _) .nil, ?_⟩
        exact (completes.close _).cons t
      · cases ends
    · cases ends

omit viable in
/-- The parts that are read, and in front of what the others start. -/
theorem starts_of_part {c c' : Cursor} {p : Part} (reads : part inner c = .ok (p, c'))
    (others : Fragments.Starts assigning c'.rest) : Fragments.Starts assigning c.rest := by
  obtain ⟨fragments, completes⟩ := others
  obtain ⟨front, _, tokens, extends'⟩ := sound.part (part_eq_ok_iff.mp reads)
  obtain ⟨fragments', _, tokens'⟩ := extends' fragments
  exact ⟨fragments', by rw [tokens, tokens']; exact completes.append_left front⟩

theorem viable_parts {bound : Nat} {c : Cursor} (enough : c.rest.length ≤ bound)
    (ends : parts inner bound c = .error .unexpectedEnd) : Fragments.Starts assigning c.rest := by
  induction bound generalizing c with
  | zero =>
    rw [List.length_eq_zero_iff.mp (Nat.le_zero.mp enough)]
    exact ⟨.nil, .refl _⟩
  | succ bound inductionHypothesis =>
    unfold parts at ends
    split at ends
    · cases ends
    · rcases bind_eq_error_iff.mp ends with ends | ⟨⟨p, c₁⟩, reads, ends⟩
      · exact viable_part sound viable ends
      · obtain ⟨front, nonempty, tokens, _⟩ := sound.part (part_eq_ok_iff.mp reads)
        have positive := List.length_pos_iff.mpr nonempty
        rw [tokens, List.length_append] at enough
        rcases bind_eq_error_iff.mp ends with ends | ⟨_, _, ends⟩
        · exact starts_of_part sound reads (inductionHypothesis (by omega) ends)
        · cases ends

theorem viable_allParts {bound : Nat} {c : Cursor}
    (ends : allParts inner bound c = .error .unexpectedEnd) :
    Fragments.Starts assigning c.rest := by
  induction bound generalizing c with
  | zero =>
    unfold allParts at ends
    split at ends <;> cases ends
  | succ bound inductionHypothesis =>
    unfold allParts at ends
    split at ends
    · cases ends
    · rcases bind_eq_error_iff.mp ends with ends | ⟨⟨p, c₁⟩, reads, ends⟩
      · exact viable_part sound viable ends
      · rcases bind_eq_error_iff.mp ends with ends | ⟨_, _, ends⟩
        · exact starts_of_part sound reads (inductionHypothesis ends)
        · cases ends

theorem viable_arguments {bound : Nat} {c : Cursor} (enough : c.rest.length ≤ bound)
    (ends : arguments inner bound c = .error .unexpectedEnd) :
    Arguments.Starts assigning c.rest := by
  have one {c : Cursor} (starts : Derivation.Starts assigning .assignment c.rest) :
      Arguments.Starts assigning c.rest := by
    obtain ⟨k, completes⟩ := starts
    exact ⟨.one k, completes⟩
  induction bound generalizing c with
  | zero =>
    unfold arguments at ends
    rcases bind_eq_error_iff.mp ends with ends | ⟨⟨t, c₁⟩, reads, ends⟩
    · exact one (viable.phrase ends rfl)
    · obtain ⟨k, between⟩ := sound.loosest reads
      have positive := List.length_pos_iff.mpr k.tokens_ne_nil
      rw [between.tokens, List.length_append] at enough
      omega
  | succ bound inductionHypothesis =>
    unfold arguments at ends
    rcases bind_eq_error_iff.mp ends with ends | ⟨⟨t, c₁⟩, reads, ends⟩
    · exact one (viable.phrase ends rfl)
    · dsimp only at ends
      split at ends
      · next isAt =>
        obtain ⟨k, between⟩ := sound.loosest reads
        obtain ⟨comma, isComma, rest, _⟩ := Cursor.isAt_iff.mp isAt
        have tokens := between.tokens
        rw [rest] at tokens
        rw [tokens, List.length_append, List.length_cons] at enough
        rcases bind_eq_error_iff.mp ends with ends | ⟨_, _, ends⟩
        · obtain ⟨args, completes⟩ := inductionHypothesis (by omega) ends
          refine ⟨.more k comma isComma args, ?_⟩
          rw [tokens, Arguments.tokens]
          exact (completes.cons comma).append_left k.tokens
        · cases ends
      · rcases bind_eq_error_iff.mp ends with ends | ⟨_, _, ends⟩
        · obtain ⟨k, tokens, _⟩ := sound.loosest reads
          rw [tokens, rest_of_demand ends, List.append_nil]
          exact ⟨.one k, .refl _⟩
        · cases ends

/-- What an opening operator starts, the operator included. -/
theorem viable_opened {rule : OpeningRule} {start : Span} {o : Token} {c : Cursor}
    (isOp : o.isOperator rule.symbol = true)
    (ends : opened limit inner start rule c = .error .unexpectedEnd) :
    Derivation.Starts assigning .unary (o :: c.rest) := by
  cases rule with
  | group =>
    obtain ⟨k, completes⟩ := starts_of_enclosed sound viable ends (fun _ _ => rfl)
      fun _ _ => node_ne_end
    refine Derivation.Starts.loosen (l := .primary)
      ⟨.group o isOp k (.ofSymbol ")") (Token.isOperator_ofSymbol _), ?_⟩ (by decide)
    exact (completes.close _).cons o
  | template =>
    rcases bind_eq_error_iff.mp ends with ends | ⟨_, _, ends⟩
    · obtain ⟨fragments, completes⟩ := viable_parts sound viable (Nat.le_refl _) ends
      have isClose := Token.isOperator_ofSymbol "\x60"
      refine Derivation.Starts.loosen (l := .primary)
        ⟨.template o isOp fragments (.ofSymbol "\x60") isClose, ?_⟩ (by decide)
      exact (completes.close _).cons o
    · exact absurd ends node_ne_end
  | unary op =>
    rcases bind_eq_error_iff.mp ends with ends | ⟨_, _, ends⟩
    · obtain ⟨k, completes⟩ := viable.phrase ends (l := .unary) rfl
      exact ⟨.unary op o isOp k, completes.cons o⟩
    · exact absurd ends node_ne_end

theorem viable_operand (standard : d.Standard assigning) {c : Cursor}
    (ends : operand d limit inner c = .error .unexpectedEnd) :
    Derivation.Starts assigning .unary c.rest := by
  obtain ⟨s, _ | ⟨o, rest⟩⟩ := c
  · exact Derivation.starts_nil _
  · unfold operand at ends
    dsimp only at ends
    split at ends
    · cases ends
    · cases ends
    · next isOperator =>
      split at ends
      · next rule found =>
        have isOp : o.isOperator rule.symbol = true :=
          Token.isOperator_iff.mpr ⟨isOperator, ((standard.opening _ _).mp found).symm⟩
        exact viable_opened sound viable isOp ends
      · cases ends
    · cases ends

/-- An operator with the phrase in front of it, and what it reads itself. -/
theorem viable_followed {rule : FollowingRule} {o : Token} (isOp : o.isOperator rule.symbol = true)
    (allowed : rule.isAssign = true → assigning = true) {l : Level} (left : Derivation assigning l)
    (isOperand : rule.operand = l) {t : Tree} {c : Cursor}
    (ends : followed limit inner t rule.power rule c = .error .unexpectedEnd) :
    Derivation.Starts assigning rule.result (left.tokens ++ o :: c.rest) := by
  cases rule with
  | binary op =>
    rcases bind_eq_error_iff.mp ends with ends | ⟨_, _, ends⟩
    · by_cases exponent : op = .exponent
      · subst exponent
        obtain rfl : .unary = l := isOperand
        obtain ⟨k, completes⟩ := viable.phrase ends (l := .exponentiation) rfl
        exact ⟨.exponent left o isOp k, (completes.cons o).append_left left.tokens⟩
      · obtain ⟨operand, chains, right⟩ := FollowingRule.operand_of_chain exponent
        rw [operand] at isOperand
        subst isOperand
        obtain ⟨k, completes⟩ := viable.phrase ends right
        exact ⟨.chain op rfl chains left o isOp k, (completes.cons o).append_left left.tokens⟩
    · exact absurd ends node_ne_end
  | assign op =>
    rcases bind_eq_error_iff.mp ends with ends | ⟨_, _, ends⟩
    · obtain rfl : .choice = l := isOperand
      obtain ⟨k, completes⟩ := viable.phrase ends (l := .assignment) rfl
      exact ⟨.assign op (allowed rfl) left o isOp k, (completes.cons o).append_left left.tokens⟩
    · exact absurd ends node_ne_end
  | step op => exact absurd ends node_ne_end
  | access =>
    rcases bind_eq_error_iff.mp ends with ends | ⟨_, _, ends⟩
    · obtain rfl : .suffixed = l := isOperand
      rw [rest_of_identifier ends]
      exact ⟨.access left o isOp .someName rfl, [.someName], by simp,
        by simp [Token.someName, TokenKind.isIgnorable]⟩
    · exact absurd ends node_ne_end
  | lookup =>
    obtain rfl : .suffixed = l := isOperand
    obtain ⟨k, completes⟩ := starts_of_enclosed sound viable ends (fun _ _ => rfl)
      fun _ _ => node_ne_end
    refine ⟨.lookup left o isOp k (.ofSymbol "]") (Token.isOperator_ofSymbol _), ?_⟩
    refine Token.Completes.append_left (.cons ?_ o) left.tokens
    exact completes.close _
  | call =>
    obtain rfl : .suffixed = l := isOperand
    rw [followed] at ends
    split at ends
    · rcases bind_eq_error_iff.mp ends with ends | ⟨_, _, ends⟩
      · cases ends
      · exact absurd ends node_ne_end
    · rcases bind_eq_error_iff.mp ends with ends | ⟨_, _, ends⟩
      · obtain ⟨args, completes⟩ := viable_arguments sound viable (Nat.le_refl _) ends
        refine ⟨.call left o isOp args (.ofSymbol ")") (Token.isOperator_ofSymbol _), ?_⟩
        refine Token.Completes.append_left (.cons ?_ o) left.tokens
        exact completes.close _
      · exact absurd ends node_ne_end
  | choice =>
    obtain rfl : .disjunction = l := isOperand
    -- The second branch may be missed as a whole, from the colon on.
    have unfinished {k : Derivation assigning .choice}
        (completes : Token.Completes c.rest k.tokens) :
        Derivation.Starts assigning .choice (left.tokens ++ o :: c.rest) := by
      obtain ⟨no, others, later, meant⟩ : Derivation.Starts assigning .choice [] :=
        Derivation.starts_nil .choice
      rw [List.nil_append] at later
      refine ⟨.choice left o isOp k (.ofSymbol ":") (Token.isOperator_ofSymbol _) no, ?_⟩
      refine Token.Completes.append_left (.cons ?_ o) left.tokens
      have whole := (completes.close ":").append_right (later.symm ▸ meant)
      simpa using whole
    rcases bind_eq_error_iff.mp ends with ends | ⟨⟨yes, c₁⟩, readsYes, ends⟩
    · obtain ⟨k, completes⟩ := viable.phrase ends (l := .choice) rfl
      exact unfinished completes
    · obtain ⟨k, tokens, _, _, _⟩ := sound.phrase readsYes (l := .choice) rfl
      rcases bind_eq_error_iff.mp ends with ends | ⟨c₂, colon, ends⟩
      · rw [rest_of_demand ends, List.append_nil] at tokens
        exact unfinished (k := k) (by rw [tokens]; exact .refl _)
      · obtain ⟨e, rest, isColon, _⟩ := demand_eq_ok_iff.mp colon
        rcases bind_eq_error_iff.mp ends with ends | ⟨_, _, ends⟩
        · obtain ⟨k', completes⟩ := viable.phrase ends (l := .choice) rfl
          refine ⟨.choice left o isOp k e isColon k', ?_⟩
          rw [tokens, rest]
          exact (((completes.cons e).append_left k.tokens).cons o).append_left left.tokens
        · exact absurd ends node_ne_end

/-- The operators behind a phrase. -/
theorem viable_chain (standard : d.Standard assigning) {min bound : Nat} {l : Level}
    {left : Derivation assigning l} {c₀ c : Cursor} {t : Tree} (between : left.Between d c₀ t c)
    (tighter : (Level.ofPower min).rank ≤ l.rank) (closed : Closed d l.power.right c.rest)
    (enough : c.rest.length ≤ bound)
    (ends : chain d limit inner min bound t c = .error .unexpectedEnd) :
    Derivation.Starts assigning (.ofPower min) c₀.rest := by
  induction bound generalizing l left c t with
  | zero =>
    unfold chain at ends
    split at ends
    · cases ends
    · split at ends <;> cases ends
  | succ bound inductionHypothesis =>
    obtain ⟨s, _ | ⟨o, after⟩⟩ := c
    · cases ends
    · unfold chain at ends
      split at ends
      · cases ends
      · next power rule found =>
        split at ends
        · cases ends
        · next taken =>
          obtain ⟨isOp, rfl, allowed⟩ := (following?_eq_some_iff standard).mp found
          have low : min < rule.power.left := by omega
          obtain ⟨operand, between⟩ :=
            between.loosen (FollowingRule.operand_le (closed _ _ found))
          rcases bind_eq_error_iff.mp ends with ends | ⟨⟨t', c₁⟩, follows, continues⟩
          · have starts := viable_followed sound viable isOp allowed operand rfl ends
            rw [between.tokens]
            exact starts.loosen (FollowingRule.ofPower_le_result low)
          · obtain ⟨rfl⟩ := between.tree
            obtain ⟨m, k, isResult, between', closed', longer⟩ :=
              sound.followed standard isOp allowed rfl between.tokens rfl
                (followed_eq_ok_iff.mp follows).2
            have lengths := congrArg List.length (between'.tokens.symm.trans between.tokens)
            have shorter : c₁.rest.length ≤ bound := by
              simp only [List.length_append, List.length_cons] at lengths enough
              omega
            refine inductionHypothesis between' ?_ closed' shorter continues
            rw [isResult]
            exact FollowingRule.ofPower_le_result low

end Rules

theorem viable_expression (standard : d.Standard assigning) (room : Nat) :
    Viable assigning (expression d limit room) := by
  induction room with
  | zero =>
    rintro min c ⟨⟩
  | succ room inductionHypothesis =>
    intro min c ends
    have sound : Sound d assigning (expression d limit room) := sound_expression standard room
    rcases bind_eq_error_iff.mp ends with ends | ⟨⟨left, c₁⟩, reads, ends⟩
    · exact (viable_operand sound inductionHypothesis standard ends).loosen
        (Level.ofPower_le_unary min)
    · obtain ⟨l, k, tight, between, closed⟩ := sound.operand standard (operand_eq_ok_iff.mp reads)
      have tighter := Nat.le_trans (Level.ofPower_le_unary min) tight
      exact viable_chain sound inductionHypothesis standard between tighter closed
        (Nat.le_refl _) ends

end Parser

end Formulae
