import Formulae.Operator
import Formulae.Proofs.Spelling.Numeral
import Formulae.Token.Lexer

/-!
Reading a text piece by piece.

What a piece reads as depends on the state before it and, through the scanning rules, on
the text behind it.
-/

namespace Formulae.Lexer

/-- Comments and white space are read past in the same way whether they are kept or not. -/
theorem readings_false (st : State) (skip : Nat) (cs : List Char) :
    readings false st skip cs = (readings true st skip cs).map fun rs =>
      rs.filter fun r => !r.token.kind.isIgnorable := by
  induction cs generalizing st skip with
  | nil => cases skip <;> rfl
  | cons c cs inductionHypothesis =>
    cases skip with
    | succ skip => exact inductionHypothesis st skip
    | zero =>
      cases scans : st.scan c cs with
      | none => simp [readings, scans, Except.map]
      | some lexeme =>
        cases inRange : lexeme.outOfRange with
        | true => simp [readings, scans, inRange, Except.map]
        | false =>
          simp only [readings, scans, inRange, inductionHypothesis, Bool.false_eq_true, if_false,
            Bool.false_or, Bool.true_or, if_true]
          cases readings true _ lexeme.extra cs with
          | error e => rfl
          | ok rs =>
            simp only [Except.map, List.filter_cons, State.token]
            split <;> rfl

/-- The tokens that mean something, from a state on. -/
def tokens (st : State) (cs : List Char) : Except LexError (List Token) :=
  (readings true st 0 cs).map fun rs => Token.significant (rs.map Reading.token)

theorem read_eq_tokens (mode : Mode) (cs : List Char) :
    Token.read mode cs = tokens { mode } cs := by
  rw [Token.read, readings_false, tokens]
  cases readings true { mode } 0 cs with
  | error e => rfl
  | ok rs => simp [Except.map, Token.significant, List.filter_map, Function.comp_def]

@[simp] theorem tokens_nil (st : State) : tokens st [] = .ok [] := by
  simp [tokens, readings, Except.map, Token.significant]

theorem tokens_of_scan {st : State} {c : Char} {cs : List Char} {lexeme : Lexeme}
    (scans : st.scan c cs = some lexeme) (inRange : lexeme.outOfRange = false) :
    tokens st (c :: cs) =
      (tokens (st.after lexeme (Text.width (c :: cs.take lexeme.extra)))
        (cs.drop lexeme.extra)).map
        (Token.significant [st.token lexeme (c :: cs.take lexeme.extra)] ++ ·) := by
  simp only [tokens, readings, scans, inRange, Bool.false_eq_true, if_false]
  rw [readings_eq_drop]
  cases readings true _ 0 (cs.drop lexeme.extra) with
  | error e => rfl
  | ok rs => simp [Except.map, Token.significant, List.filter_cons]; split <;> rfl

/-- The first token of a text and the tokens behind it. -/
theorem exists_scan {st : State} {c : Char} {cs : List Char} {ts : List Token}
    (read : tokens st (c :: cs) = .ok ts) :
    ∃ lexeme us, st.scan c cs = some lexeme ∧ lexeme.outOfRange = false ∧
      tokens (st.after lexeme (Text.width (c :: cs.take lexeme.extra)))
        (cs.drop lexeme.extra) = .ok us ∧
      ts = Token.significant [st.token lexeme (c :: cs.take lexeme.extra)] ++ us := by
  cases scans : st.scan c cs with
  | none =>
    simp only [tokens, readings, scans] at read
    cases read
  | some lexeme =>
    cases inRange : lexeme.outOfRange with
    | true =>
      simp only [tokens, readings, scans, inRange, if_true] at read
      cases read
    | false =>
      rw [tokens_of_scan scans inRange] at read
      cases behind : tokens _ (cs.drop lexeme.extra) with
      | error e =>
        rw [behind] at read
        cases read
      | ok us =>
        rw [behind] at read
        cases read
        exact ⟨lexeme, us, rfl, inRange, behind, rfl⟩

/-- Before `rest`, the text reads as these tokens and leads from one state to another. -/
def Reads (st : State) (text rest : List Char) (ts : List Token) (st' : State) : Prop :=
  tokens st (text ++ rest) = (tokens st' rest).map (ts ++ ·)

theorem Reads.nil (st : State) (rest : List Char) : Reads st [] rest [] st := by
  rw [Reads, List.nil_append]
  cases tokens st rest <;> rfl

theorem Reads.append {st st₁ st₂ : State} {front back rest : List Char} {ts us : List Token}
    (first : Reads st front (back ++ rest) ts st₁) (second : Reads st₁ back rest us st₂) :
    Reads st (front ++ back) rest (ts ++ us) st₂ := by
  rw [Reads, List.append_assoc, first, second]
  cases tokens st₂ rest with
  | error e => rfl
  | ok vs => simp [Except.map]

theorem Reads.of_scan {st : State} {c : Char} {cs rest : List Char} {lexeme : Lexeme}
    (scans : st.scan c (cs ++ rest) = some lexeme) (length : lexeme.extra = cs.length)
    (inRange : lexeme.outOfRange = false) :
    Reads st (c :: cs) rest (Token.significant [st.token lexeme (c :: cs)])
      (st.after lexeme (Text.width (c :: cs))) := by
  have step := tokens_of_scan scans inRange
  rwa [length, List.take_left, List.drop_left] at step

/-- A token that means something, read as it is. -/
theorem Reads.token {st : State} {c : Char} {cs rest : List Char} {lexeme : Lexeme}
    (scans : st.scan c (cs ++ rest) = some lexeme) (length : lexeme.extra = cs.length)
    (inRange : lexeme.outOfRange = false) (means : lexeme.kind.isIgnorable = false) :
    Reads st (c :: cs) rest [st.token lexeme (c :: cs)]
      (st.after lexeme (Text.width (c :: cs))) := by
  have reads := Reads.of_scan scans length inRange
  have kept : Token.significant [st.token lexeme (c :: cs)] = [st.token lexeme (c :: cs)] := by
    simp [Token.significant, State.token, means]
  rwa [kept] at reads

/-- A text that reads as some tokens up to its end has these tokens. -/
theorem Reads.tokens_eq {st st' : State} {text : List Char} {ts : List Token}
    (reads : Reads st text [] ts st') : tokens st text = .ok ts := by
  rw [Reads, List.append_nil, tokens_nil] at reads
  rw [reads]
  simp [Except.map]

namespace State

/-- In an expression, where an operand is expected. -/
def expecting (position : Nat) : State := ⟨.expression, false, position⟩

/-- In an expression, behind an operand. -/
def complete (position : Nat) : State := ⟨.expression, true, position⟩

/-- In the body of a template. -/
def inside (position : Nat) : State := ⟨.template, false, position⟩

end State

open State

/-- Before `rest`, the symbol reads as an operator and leads to a state of this form. -/
def Marks (st : State) (symbol : String) (rest : List Char) (next : Nat → State) : Prop :=
  ∃ o position, o.isOperator symbol = true ∧ Reads st symbol.toList rest [o] (next position)

theorem Marks.of_scan {st : State} {symbol : String} {c : Char} {cs rest : List Char}
    {lexeme : Lexeme} {next : Nat → State} (spelled : symbol.toList = c :: cs)
    (scans : st.scan c (cs ++ rest) = some lexeme) (isOp : lexeme.kind = .operator)
    (length : lexeme.extra = cs.length) (inRange : lexeme.outOfRange = false)
    (leads : ∀ position, next position =
      ⟨lexeme.mode.getD st.mode, lexeme.endsOperand, position⟩) :
    Marks st symbol rest next := by
  have reads := Reads.token scans length inRange (by rw [isOp]; rfl)
  refine ⟨st.token lexeme (c :: cs), st.position + Text.width (c :: cs), ?_, ?_⟩
  · rw [Token.isOperator_iff]
    exact ⟨isOp, by rw [State.token, ← spelled, String.ofList_toList]⟩
  · rw [leads, spelled]
    simpa [State.after, isOp, TokenKind.isIgnorable] using reads

section Symbols

variable (position : Nat) (rest : List Char)

theorem marks_group (afterOperand : Bool) :
    Marks ⟨.expression, afterOperand, position⟩ "(" rest expecting := by
  cases rest <;> cases afterOperand <;> exact Marks.of_scan rfl rfl rfl rfl rfl fun _ => rfl

theorem marks_close (afterOperand : Bool) :
    Marks ⟨.expression, afterOperand, position⟩ ")" rest complete := by
  cases rest <;> cases afterOperand <;> exact Marks.of_scan rfl rfl rfl rfl rfl fun _ => rfl

theorem marks_lookup : Marks (complete position) "[" rest expecting := by
  cases rest <;> exact Marks.of_scan rfl rfl rfl rfl rfl fun _ => rfl

theorem marks_unlock : Marks (complete position) "]" rest complete := by
  cases rest <;> exact Marks.of_scan rfl rfl rfl rfl rfl fun _ => rfl

theorem marks_comma : Marks (complete position) "," rest expecting := by
  cases rest <;> exact Marks.of_scan rfl rfl rfl rfl rfl fun _ => rfl

theorem marks_template : Marks (expecting position) "\x60" rest inside := by
  cases rest <;> exact Marks.of_scan rfl rfl rfl rfl rfl fun _ => rfl

theorem marks_end : Marks (inside position) "\x60" rest complete :=
  Marks.of_scan rfl rfl rfl rfl rfl fun _ => rfl

theorem marks_embed : Marks (inside position) "\x7b" rest expecting :=
  Marks.of_scan rfl rfl rfl rfl rfl fun _ => rfl

theorem marks_return : Marks (complete position) "\x7d" rest inside := by
  cases rest <;> exact Marks.of_scan rfl rfl rfl rfl rfl fun _ => rfl

theorem marks_step (op : StepOp) (afterOperand : Bool) :
    Marks ⟨.expression, afterOperand, position⟩ op.symbol rest
      fun position => ⟨.expression, afterOperand, position⟩ := by
  cases op <;> cases afterOperand <;> exact Marks.of_scan rfl rfl rfl rfl rfl fun _ => rfl

end Symbols

/-- A minus sign before what is no number. -/
theorem marks_negate (position : Nat) {c : Char} (rest : List Char) (digit : c.isDigit = false)
    (point : c ≠ '.') (minus : c ≠ '-') (equals : c ≠ '=') :
    Marks (expecting position) "-" (c :: rest) expecting := by
  have number : Rule.number false '-' (c :: rest) = none := by
    simp [Rule.number, Rule.splitSign, digit, fractionOf_cons point]
  have pair : Rule.pair false '-' (c :: rest) = none := by
    simp [Rule.pair, Rule.pairs, minus, equals]
  have scans : (expecting position).scan '-' (c :: rest) =
      some { kind := .operator, extra := 0 } := by
    simp only [State.scan, expecting, Mode.rules, List.findSome?_cons, number, pair]
    rfl
  exact Marks.of_scan rfl scans rfl rfl rfl fun _ => rfl

theorem marks_invert (position : Nat) {c : Char} (rest : List Char) (equals : c ≠ '=') :
    Marks (expecting position) "!" (c :: rest) expecting := by
  have pair : Rule.pair false '!' (c :: rest) = none := by
    simp [Rule.pair, Rule.pairs, equals]
  have scans : (expecting position).scan '!' (c :: rest) =
      some { kind := .operator, extra := 0 } := by
    simp only [State.scan, expecting, Mode.rules, List.findSome?_cons, pair]
    rfl
  exact Marks.of_scan rfl scans rfl rfl rfl fun _ => rfl

theorem marks_access (position : Nat) {c : Char} (rest : List Char) (digit : c.isDigit = false) :
    Marks (complete position) "." (c :: rest) expecting := by
  have number : Rule.number true '.' (c :: rest) = none := by
    simp [Rule.number, Rule.splitSign, Rule.fractionOf, digit]
  have scans : (complete position).scan '.' (c :: rest) =
      some { kind := .operator, extra := 0 } := by
    simp only [State.scan, complete, Mode.rules, List.findSome?_cons, number]
    rfl
  exact Marks.of_scan rfl scans rfl rfl rfl fun _ => rfl

/-- A symbol that between spaces reads as an operator, behind an operand. -/
def Spaced (symbol : String) : Prop :=
  ∃ c cs, symbol.toList = c :: cs ∧ Text.isBlank c = false ∧ ∀ position rest,
    (complete position).scan c (cs ++ ' ' :: rest) =
      some { kind := .operator, extra := cs.length }

theorem spaced_binary (op : BinaryOp) : Spaced op.symbol := by
  cases op <;> exact ⟨_, _, rfl, rfl, fun _ _ => rfl⟩

theorem spaced_assign (op : AssignOp) : Spaced op.symbol := by
  cases op <;> exact ⟨_, _, rfl, rfl, fun _ _ => rfl⟩

theorem spaced_question : Spaced "?" := ⟨_, _, rfl, rfl, fun _ _ => rfl⟩

theorem spaced_colon : Spaced ":" := ⟨_, _, rfl, rfl, fun _ _ => rfl⟩

/-- A space before something else reads as nothing. -/
theorem reads_space (afterOperand : Bool) (position : Nat) {text : List Char} {c : Char}
    {cs : List Char} (spelled : text = c :: cs) (solid : Text.isBlank c = false) :
    Reads ⟨.expression, afterOperand, position⟩ [' '] text []
      ⟨.expression, afterOperand, position + 1⟩ := by
  subst spelled
  have scans : State.scan ⟨.expression, afterOperand, position⟩ ' ' ([] ++ c :: cs) =
      some { kind := .blank, extra := ((c :: cs).takeWhile Text.isBlank).length } := by
    cases afterOperand <;> rfl
  exact Reads.of_scan scans (by simp [solid]) rfl

/-- An operator of the grammar between its operands. -/
theorem Spaced.marks {symbol : String} (spaced : Spaced symbol) (position : Nat)
    {text : List Char} {c : Char} {cs : List Char} (spelled : text = c :: cs)
    (solid : Text.isBlank c = false) :
    ∃ o position', o.isOperator symbol = true ∧
      Reads (complete position) (' ' :: (symbol.toList ++ [' '])) text [o]
        (expecting position') := by
  obtain ⟨first, others, symbolSpelled, visible, scans⟩ := spaced
  have before : Reads (complete position) [' '] (symbol.toList ++ [' '] ++ text) []
      (complete (position + 1)) :=
    reads_space true position (by rw [symbolSpelled]; rfl) visible
  obtain ⟨o, position', isOp, reads⟩ :
      Marks (complete (position + 1)) symbol (' ' :: text) expecting :=
    Marks.of_scan symbolSpelled (scans _ _) rfl rfl rfl fun _ => rfl
  have behind := reads_space false position' spelled solid
  exact ⟨o, position' + 1, isOp, before.append (reads.append behind)⟩

end Formulae.Lexer
