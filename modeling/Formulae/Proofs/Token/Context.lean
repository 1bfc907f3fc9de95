import Formulae.Proofs.Spelling.Stream
import Formulae.Proofs.Token.Trace

/-!
What the lexer knows at a token, from the tokens before it.

The lexer keeps a mode and whether an operand has just ended. Both follow from the tokens
that it has read, without comments and white space.
-/

namespace Formulae

open Formulae.Lexer

/-- A mode, and whether an operand has just ended. -/
structure Context where
  mode : Mode
  afterOperand : Bool
  deriving DecidableEq, Repr

namespace Context

/-- Where an operand is expected. -/
def expecting : Context := ⟨.expression, false⟩

/-- Behind an operand. -/
def complete : Context := ⟨.expression, true⟩

/-- In the body of a template. -/
def inside : Context := ⟨.template, false⟩

end Context

/-- Whether an operand is complete behind the token. A step behind an operand leaves one. -/
def Token.completes (before : Context) (t : Token) : Bool :=
  t.kind = .identifier || (t.kind = .literal && before.mode = .expression) ||
    (t.isOperator "++" || t.isOperator "--") && before.afterOperand ||
      t.isOperator ")" || t.isOperator "]" || t.isOperator "\x60" && before.mode = .template

def Context.behind (before : Context) (t : Token) : Context :=
  ⟨before.mode.behind t, t.completes before⟩

namespace Lexer

def State.context (st : State) : Context := ⟨st.mode, st.afterOperand⟩

section Scan

variable {st : State} {c : Char} {text cs : List Char} {lexeme : Lexeme}

theorem isOperator_token (isOp : lexeme.kind = .operator) (symbol : String) :
    (st.token lexeme (c :: text)).isOperator symbol = decide (c :: text = symbol.toList) := by
  rw [Bool.eq_iff_iff, token_isOperator isOp, decide_eq_true_eq]

/-- An operator completes an operand as its characters say. -/
theorem completes_operator (isOp : lexeme.kind = .operator) :
    (st.token lexeme (c :: text)).completes st.context =
      ((decide (c :: text = ['+', '+']) || decide (c :: text = ['-', '-'])) && st.afterOperand ||
        decide (c :: text = [')']) || decide (c :: text = [']']) ||
          decide (c :: text = ['\x60']) && st.mode = .template) := by
  have kind : (st.token lexeme (c :: text)).kind = .operator := isOp
  simp only [Token.completes, kind, isOperator_token isOp]
  rfl

theorem endsOperand_of_pair (found : Rule.pair st.afterOperand c (text ++ cs) = some lexeme)
    (length : text.length = lexeme.extra) :
    lexeme.endsOperand = (st.token lexeme (c :: text)).completes st.context := by
  unfold Rule.pair at found
  split at found
  · next d ds same =>
    split at found
    · cases found
      obtain ⟨e, rfl⟩ := List.length_eq_one_iff.mp length
      cases same
      rw [completes_operator rfl, Bool.eq_iff_iff]
      simp [and_comm]
    · cases found
  · cases found

theorem endsOperand_of_single (found : Rule.single st.afterOperand c (text ++ cs) = some lexeme)
    (length : text.length = lexeme.extra) (expression : st.mode = .expression) :
    lexeme.endsOperand = (st.token lexeme (c :: text)).completes st.context := by
  rw [Rule.single] at found
  split at found
  · cases found
    cases List.length_eq_zero_iff.mp length
    rw [completes_operator rfl]
    simp [expression, beq_eq_decide]
  · cases found

theorem endsOperand_of_templateMarker
    (found : Rule.templateMarker st.afterOperand c (text ++ cs) = some lexeme)
    (length : text.length = lexeme.extra) (expression : st.mode = .expression) :
    lexeme.endsOperand = (st.token lexeme (c :: text)).completes st.context := by
  rw [Rule.templateMarker] at found
  split at found
  · next marked =>
    cases found
    cases List.length_eq_zero_iff.mp length
    rw [completes_operator rfl]
    rcases marked with rfl | rfl <;> simp [expression, Lexeme.marker]
  · cases found

/-- In an expression, what a lexeme says of operands follows from its token. -/
theorem endsOperand_of_expression (scans : st.scan c (text ++ cs) = some lexeme)
    (length : text.length = lexeme.extra) (means : lexeme.kind.isIgnorable = false)
    (expression : st.mode = .expression) :
    lexeme.endsOperand = (st.token lexeme (c :: text)).completes st.context := by
  have operand (ends : lexeme.endsOperand = true)
      (kind : lexeme.kind = .literal ∨ lexeme.kind = .identifier) :
      lexeme.endsOperand = (st.token lexeme (c :: text)).completes st.context := by
    rw [ends]
    rcases kind with kind | kind <;>
      simp [Token.completes, State.token, kind, State.context, expression]
  obtain ⟨rule, member, found⟩ := List.exists_of_findSome?_eq_some scans
  rw [expression] at member
  simp only [Mode.rules, List.mem_cons, List.not_mem_nil, or_false] at member
  rcases member with rfl | rfl | rfl | rfl | rfl | rfl | rfl | rfl | rfl | rfl
  · exact operand (Rule.stable_number found).ends (.inl (Rule.kind_of_number found))
  · exact operand (Rule.stable_string found).ends (.inl (Rule.kind_of_string found))
  · exact operand (Rule.stable_color found).ends (.inl (Rule.kind_of_color found))
  · exact operand (Rule.stable_identifier found).ends (.inr (Rule.kind_of_identifier found))
  · unfold Rule.comment at found
    split at found <;> cases found <;> cases means
  · exact endsOperand_of_pair found length
  · exact endsOperand_of_single found length expression
  · exact endsOperand_of_templateMarker found length expression
  · rw [Rule.blank] at found
    split at found <;> cases found
    cases means
  · rw [Rule.sentinel] at found
    split at found <;> cases found
    rfl

theorem endsOperand_of_template (scans : st.scan c (text ++ cs) = some lexeme)
    (length : text.length = lexeme.extra) (template : st.mode = .template) :
    lexeme.endsOperand = (st.token lexeme (c :: text)).completes st.context := by
  obtain ⟨rule, member, found⟩ := List.exists_of_findSome?_eq_some scans
  rw [template] at member
  simp only [Mode.rules, List.mem_cons, List.not_mem_nil, or_false] at member
  rcases member with rfl | rfl
  · rw [Rule.expressionMarker] at found
    split at found
    · next brace =>
      cases found
      cases List.length_eq_zero_iff.mp length
      subst brace
      rw [completes_operator rfl]
      simp [Lexeme.marker]
    split at found
    · next backtick =>
      cases found
      cases List.length_eq_zero_iff.mp length
      subst backtick
      rw [completes_operator rfl]
      simp [template, Lexeme.marker]
    · cases found
  · rw [Rule.template] at found
    split at found
    · cases found
    · cases found
      simp [Token.completes, State.token, State.context, template, Token.isOperator]

/-- Behind a token that means something, what the lexer knows follows from what it knew. -/
theorem context_after (scans : st.scan c (text ++ cs) = some lexeme)
    (length : text.length = lexeme.extra) (width : Nat) :
    (st.after lexeme width).context =
      if lexeme.kind.isIgnorable then st.context
      else st.context.behind (st.token lexeme (c :: text)) := by
  have mode := mode_after scans width
  rw [← length, List.take_left] at mode
  split
  · next ignorable =>
    have other : lexeme.kind ≠ .operator := by
      intro isOp
      rw [isOp] at ignorable
      cases ignorable
    rw [Mode.behind_of_kind _ other] at mode
    change Context.mk (st.after lexeme width).mode _ = _
    rw [mode]
    simp [State.context, State.after, ignorable]
  · next means =>
    have means := Bool.eq_false_iff.mpr means
    have ends : lexeme.endsOperand = (st.token lexeme (c :: text)).completes st.context := by
      cases kept : st.mode with
      | expression => exact endsOperand_of_expression scans length means kept
      | template => exact endsOperand_of_template scans length kept
    change Context.mk (st.after lexeme width).mode _ = _
    rw [mode, Context.behind, ← ends]
    simp [State.after, State.context, means]

end Scan

/-- Readings of which each is made in the context that the one before leaves. -/
inductive Chained : Context → List Reading → Prop
  | nil (before : Context) : Chained before []
  | cons {r : Reading} {rs : List Reading} (behind : Chained (r.state.context.behind r.token) rs) :
      Chained r.state.context (r :: rs)

/-- A trace is chained, also without comments and white space. -/
theorem Trace.chained {st st' : State} {cs rest : List Char} {rs : List Reading}
    (trace : Trace st cs rs st' rest) : Chained st.context (meaningful rs) := by
  induction trace with
  | nil st _ => exact .nil st.context
  | @cons st _ c text _ _ lexeme _ scans length _ _ inductionHypothesis =>
    rw [context_after scans length] at inductionHypothesis
    rw [meaningful, List.filter_cons]
    split
    · next means =>
      rw [if_neg (by simpa [State.token] using means)] at inductionHypothesis
      exact .cons (r := ⟨st, st.token lexeme (c :: text)⟩) inductionHypothesis
    · next ignorable =>
      rwa [if_pos (by simpa [State.token] using ignorable)] at inductionHypothesis

/-- What the lexer knows at the end follows from the tokens that mean something. -/
theorem Trace.context_eq {st st' : State} {cs rest : List Char} {rs : List Reading}
    (trace : Trace st cs rs st' rest) :
    st'.context = ((meaningful rs).map Reading.token).foldl Context.behind st.context := by
  induction trace with
  | nil => rfl
  | @cons st _ c text _ _ lexeme rs scans length _ _ inductionHypothesis =>
    rw [inductionHypothesis, context_after scans length]
    cases means : lexeme.kind.isIgnorable with
    | false =>
      rw [meaningful_kept (r := ⟨st, st.token lexeme (c :: text)⟩) means]
      rfl
    | true =>
      rw [meaningful_dropped (r := ⟨st, st.token lexeme (c :: text)⟩) means]
      rfl

end Lexer

end Formulae
