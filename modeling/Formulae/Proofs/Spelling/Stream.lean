import Formulae.Proofs.Spelling.FreeText

/-!
The order in which a text can have its tokens.
-/

namespace Formulae

open Formulae.Lexer Formulae.Lexer.State

/-- Whether the token opens or closes a template or an expression in one. -/
def Token.switches (t : Token) : Bool :=
  t.isOperator "\x60" || t.isOperator "\x7b" || t.isOperator "\x7d"

/-- The mode behind a token. -/
def Mode.behind (mode : Mode) (t : Token) : Mode :=
  if t.switches then
    match mode with
    | .expression => .template
    | .template => .expression
  else mode

/-- The tokens of a text in this mode. Two texts of a template do not follow each other. -/
inductive Token.Stream : Mode → List Token → Prop
  | nil (mode : Mode) : Stream mode []
  | cons {mode : Mode} {t : Token} {ts : List Token} (scanned : t.Scanned mode)
      (apart : mode = .template → t.kind = .literal → ∀ u us, ts = u :: us → u.kind ≠ .literal)
      (rest : Stream (mode.behind t) ts) : Stream mode (t :: ts)

/-- Operators other than the markers of a template keep the mode. -/
theorem Mode.behind_of_isOperator {o : Token} {symbol : String} (mode : Mode)
    (isOp : o.isOperator symbol = true)
    (other : symbol ≠ "\x60" ∧ symbol ≠ "\x7b" ∧ symbol ≠ "\x7d") : mode.behind o = mode := by
  have text := (Token.isOperator_iff.mp isOp).2
  subst text
  simp [behind, Token.switches, Token.isOperator, other]

theorem Mode.behind_of_kind {t : Token} (mode : Mode) (other : t.kind ≠ .operator) :
    mode.behind t = mode := by
  simp [behind, Token.switches, Token.isOperator, other]

theorem Mode.behind_of_switches {t : Token} {symbol : String} (isOp : t.isOperator symbol = true)
    (marker : symbol = "\x60" ∨ symbol = "\x7b" ∨ symbol = "\x7d") :
    Mode.expression.behind t = .template ∧ Mode.template.behind t = .expression := by
  have switches : t.switches = true := by
    rcases marker with rfl | rfl | rfl <;> simp [Token.switches, isOp]
  simp [behind, switches]

namespace Lexer

variable {st : State} {c : Char} {cs : List Char} {lexeme : Lexeme}

theorem token_isOperator (isOp : lexeme.kind = .operator) (symbol : String) :
    (st.token lexeme (c :: cs)).isOperator symbol = true ↔ c :: cs = symbol.toList := by
  rw [Token.isOperator_iff]
  constructor
  · rintro ⟨_, text⟩
    rw [← text]
    exact String.toList_ofList.symm
  · intro text
    refine ⟨isOp, ?_⟩
    change String.ofList (c :: cs) = symbol
    rw [text, String.ofList_toList]

/-- In an expression the mode behind a lexeme is that behind its token. -/
theorem mode_of_expression (scans : st.scan c cs = some lexeme)
    (expression : st.mode = .expression) :
    lexeme.mode.getD .expression =
      Mode.expression.behind (st.token lexeme (c :: cs.take lexeme.extra)) := by
  have operand (stable : lexeme.Stable c cs) (other : lexeme.kind ≠ .operator) :
      lexeme.mode.getD .expression =
        Mode.expression.behind (st.token lexeme (c :: cs.take lexeme.extra)) := by
    rw [Mode.behind_of_kind .expression other, stable.keeps]
    rfl
  cases scanned scans expression with
  | number found => exact operand (Rule.stable_number found) (by simp [Rule.kind_of_number found])
  | string found => exact operand (Rule.stable_string found) (by simp [Rule.kind_of_string found])
  | color found => exact operand (Rule.stable_color found) (by simp [Rule.kind_of_color found])
  | name found =>
    exact operand (Rule.stable_identifier found) (by simp [Rule.kind_of_identifier found])
  | neutral other unmarked keeps =>
    rw [keeps]
    by_cases isOp : lexeme.kind = .operator
    · obtain ⟨backtick, opening, closing⟩ := unmarked isOp
      have stays : (st.token lexeme (c :: cs.take lexeme.extra)).switches = false := by
        rw [← Bool.not_eq_true]
        simp only [Token.switches, Bool.or_eq_true, token_isOperator isOp]
        rintro ((same | same) | same)
        · exact backtick (List.cons.inj same).1
        · exact opening (List.cons.inj same).1
        · exact closing (List.cons.inj same).1
      rw [Mode.behind, if_neg (by simp [stays])]
      rfl
    · rw [Mode.behind_of_kind .expression isOp]
      rfl
  | marker marked same =>
    subst same
    rcases marked with rfl | rfl
    · rfl
    · rfl

/-- A marker or a text; behind a text comes what ends it. -/
theorem scanned_template (scans : st.scan c cs = some lexeme) (template : st.mode = .template) :
    lexeme.kind.isIgnorable = false ∧ lexeme.mode.getD .template =
      Mode.template.behind (st.token lexeme (c :: cs.take lexeme.extra)) ∧
        (lexeme.kind = .literal → Text.Free.Stops (cs.drop lexeme.extra)) := by
  obtain ⟨rule, member, found⟩ := List.exists_of_findSome?_eq_some scans
  rw [template] at member
  simp only [Mode.rules, List.mem_cons, List.not_mem_nil, or_false] at member
  rcases member with rfl | rfl
  · rw [Rule.expressionMarker] at found
    split at found
    · next brace =>
      cases found
      subst brace
      exact ⟨rfl, rfl, fun isText => by cases isText⟩
    split at found
    · next backtick =>
      cases found
      subst backtick
      exact ⟨rfl, rfl, fun isText => by cases isText⟩
    · cases found
  · rw [Rule.template] at found
    split at found
    · cases found
    · next extra text decoded =>
      cases found
      have stops := Text.Free.stops_drop (c :: cs)
      rw [decoded] at stops
      exact ⟨rfl, (Mode.behind_of_kind .template (by simp [State.token])).symm, fun _ => stops⟩

theorem mode_after (scans : st.scan c cs = some lexeme) (width : Nat) :
    (st.after lexeme width).mode =
      st.mode.behind (st.token lexeme (c :: cs.take lexeme.extra)) := by
  rw [State.after]
  cases mode : st.mode with
  | expression => exact mode_of_expression scans mode
  | template => exact (scanned_template scans mode).2.1

/-- Where a text ends, the next token is no text. -/
theorem kind_of_stops {ts : List Token} (template : st.mode = .template)
    (stops : Text.Free.Stops cs) (read : tokens st cs = .ok ts) :
    ∀ u us, ts = u :: us → u.kind ≠ .literal := by
  rintro u us rfl
  cases cs with
  | nil =>
    rw [tokens_nil] at read
    cases read
  | cons d ds =>
    obtain ⟨lexeme, vs, scans, _, _, same⟩ := exists_scan read
    have isOp : lexeme.kind = .operator := by
      simp only [State.scan, template, Mode.rules] at scans
      rcases stops.first with rfl | rfl
      · cases scans
        rfl
      · cases scans
        rfl
    have kept : Token.significant [st.token lexeme (d :: ds.take lexeme.extra)] =
        [st.token lexeme (d :: ds.take lexeme.extra)] := by
      simp [Token.significant, State.token, isOp, TokenKind.isIgnorable]
    rw [kept] at same
    cases same
    simp [State.token, isOp]

/-- What is read of a text is a stream of tokens. -/
theorem stream_of_tokens {st : State} {cs : List Char} {ts : List Token}
    (read : tokens st cs = .ok ts) : Token.Stream st.mode ts := by
  match cs with
  | [] =>
    rw [tokens_nil] at read
    cases read
    exact .nil _
  | c :: cs =>
    obtain ⟨lexeme, us, scans, inRange, behind, same⟩ := exists_scan read
    have stream := stream_of_tokens behind
    rw [mode_after scans] at stream
    cases ignorable : lexeme.kind.isIgnorable with
    | true =>
      have dropped : Token.significant [st.token lexeme (c :: cs.take lexeme.extra)] = [] := by
        simp [Token.significant, State.token, ignorable]
      have other : lexeme.kind ≠ .operator := by
        intro isOp
        rw [isOp] at ignorable
        cases ignorable
      rw [Mode.behind_of_kind _ other] at stream
      rw [dropped, List.nil_append] at same
      subst same
      exact stream
    | false =>
      have kept : Token.significant [st.token lexeme (c :: cs.take lexeme.extra)] =
          [st.token lexeme (c :: cs.take lexeme.extra)] := by
        simp [Token.significant, State.token, ignorable]
      rw [kept] at same
      subst same
      refine .cons ⟨st, c, cs, lexeme, rfl, scans, inRange, rfl⟩ (fun template isText => ?_) stream
      refine kind_of_stops ?_ ((scanned_template scans template).2.2 isText) behind
      rw [mode_after scans, Mode.behind_of_kind _ (by rw [isText]; simp), template]
termination_by cs.length

end Lexer

end Formulae
