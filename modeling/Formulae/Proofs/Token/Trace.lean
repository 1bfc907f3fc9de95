import Formulae.Proofs.Token.Locality

/-!
Reading as a relation.

A trace reads a text lexeme by lexeme, up to some rest of the text. It is taken apart between
lexemes, and what it has read it reads without the rest too. The lexer gives the readings of
the trace that reaches the end of the text; if a trace gets stuck before, it gives the reason.
-/

namespace Formulae.Lexer

/-- From a state, the text is read up to a state before the rest. -/
inductive Trace : State → List Char → List Reading → State → List Char → Prop
  | nil (st : State) (rest : List Char) : Trace st rest [] st rest
  | cons {st st' : State} {c : Char} {text cs rest : List Char} {lexeme : Lexeme}
      {rs : List Reading} (scans : st.scan c (text ++ cs) = some lexeme)
      (length : text.length = lexeme.extra) (inRange : lexeme.outOfRange = false)
      (behind : Trace (st.after lexeme (Text.width (c :: text))) cs rs st' rest) :
      Trace st (c :: (text ++ cs)) (⟨st, st.token lexeme (c :: text)⟩ :: rs) st' rest

/-- Where the lexer stops, and why. -/
inductive Stuck : State → List Char → LexError → Prop
  | noMatch {st : State} {c : Char} {cs : List Char} (unmatched : st.scan c cs = none) :
      Stuck st (c :: cs) (.noMatch st.position (LexError.context (c :: cs)))
  | outOfRange {st : State} {c : Char} {text cs : List Char} {lexeme : Lexeme}
      (scans : st.scan c (text ++ cs) = some lexeme) (length : text.length = lexeme.extra)
      (tooLarge : lexeme.outOfRange = true) :
      Stuck st (c :: (text ++ cs)) (.outOfRange st.position (String.ofList (c :: text)))

variable {st st₁ st' : State} {cs middle rest : List Char} {rs rs' : List Reading}

/-- The text of some readings. -/
def texts (rs : List Reading) : List Char := rs.flatMap fun r => r.token.text.toList

theorem texts_cons (st st' : State) (lexeme : Lexeme) (text : List Char) (rs : List Reading) :
    texts (⟨st', st.token lexeme text⟩ :: rs) = text ++ texts rs := by
  rw [texts, List.flatMap_cons]
  congr 1
  exact String.toList_ofList

/-- A lexeme and the text that it takes. -/
theorem State.exists_text_of_scan {c : Char} {lexeme : Lexeme}
    (scans : st.scan c cs = some lexeme) :
    ∃ text behind, cs = text ++ behind ∧ text.length = lexeme.extra :=
  ⟨_, _, (List.take_append_drop lexeme.extra cs).symm, length_of_scan scans⟩

section Runs

variable {preserve : Bool} {c : Char} {text : List Char} {lexeme : Lexeme}

theorem readings_of_scan (scans : st.scan c (text ++ cs) = some lexeme)
    (length : text.length = lexeme.extra) (inRange : lexeme.outOfRange = false) :
    readings true st 0 (c :: (text ++ cs)) =
      (readings true (st.after lexeme (Text.width (c :: text))) 0 cs).map
        (⟨st, st.token lexeme (c :: text)⟩ :: ·) := by
  simp only [readings, scans, inRange, Bool.false_eq_true, if_false, Bool.true_or, if_true]
  rw [readings_eq_drop, ← length, List.take_left, List.drop_left]
  cases readings true _ 0 cs <;> rfl

theorem readings_of_stuck {e : LexError} (stuck : Stuck st cs e) :
    readings true st 0 cs = .error e := by
  cases stuck with
  | noMatch unmatched => simp only [readings, unmatched]
  | outOfRange scans length tooLarge =>
    simp only [readings, scans, tooLarge, if_true]
    rw [← length, List.take_left]

end Runs

namespace Trace

theorem exists_split (trace : Trace st cs (rs ++ rs') st' rest) :
    ∃ st₁ middle, Trace st cs rs st₁ middle ∧ Trace st₁ middle rs' st' rest := by
  induction rs generalizing st cs with
  | nil => exact ⟨st, cs, .nil st cs, trace⟩
  | cons r rs inductionHypothesis =>
    cases trace with
    | cons scans length inRange behind =>
      obtain ⟨st₁, middle, first, second⟩ := inductionHypothesis behind
      exact ⟨st₁, middle, .cons scans length inRange first, second⟩

/-- What is read is the text up to the rest. -/
theorem text_eq (trace : Trace st cs rs st' rest) : cs = texts rs ++ rest := by
  induction trace with
  | nil => rfl
  | cons _ _ _ _ inductionHypothesis =>
    rw [texts_cons, inductionHypothesis]
    simp

theorem position_eq (trace : Trace st cs rs st' rest) :
    st'.position = st.position + Text.width (texts rs) := by
  induction trace with
  | nil => rfl
  | cons _ _ _ _ inductionHypothesis =>
    rw [texts_cons, inductionHypothesis, Text.width_append, ← Nat.add_assoc]
    rfl

/-- Each reading takes a character at least. -/
theorem length_le (trace : Trace st cs rs st' rest) : rs.length + rest.length ≤ cs.length := by
  induction trace with
  | nil => simp
  | cons _ _ _ _ inductionHypothesis =>
    simp only [List.length_cons, List.length_append]
    omega

/-- What is read does not depend on the rest. -/
theorem front (trace : Trace st cs rs st' rest) : Trace st (texts rs) rs st' [] := by
  induction trace with
  | nil st rest => exact .nil st []
  | @cons st st' c text cs rest lexeme rs scans length inRange behind inductionHypothesis =>
    rw [texts_cons]
    refine .cons ?_ length inRange inductionHypothesis
    have longer : st.scan c (text ++ texts rs ++ rest) = some lexeme := by
      rwa [List.append_assoc, ← behind.text_eq]
    exact State.scan_front longer (by simp [length])

theorem readings_eq (trace : Trace st cs rs st' rest) :
    readings true st 0 cs = (readings true st' 0 rest).map (rs ++ ·) := by
  induction trace with
  | nil st rest => cases readings true st 0 rest <;> rfl
  | cons scans length inRange _ inductionHypothesis =>
    rw [readings_of_scan scans length inRange, inductionHypothesis]
    cases readings true _ 0 _ <;> rfl

end Trace

/-- From each state a text is read to its end, or up to where the lexer is stuck. -/
theorem exists_trace (st : State) (cs : List Char) :
    ∃ rs st' rest, Trace st cs rs st' rest ∧ (rest = [] ∨ ∃ e, Stuck st' rest e) := by
  match cs with
  | [] => exact ⟨[], st, [], .nil st [], .inl rfl⟩
  | c :: cs =>
    cases scans : st.scan c cs with
    | none => exact ⟨[], st, c :: cs, .nil st _, .inr ⟨_, .noMatch scans⟩⟩
    | some lexeme =>
      obtain ⟨text, behind, same, length⟩ := State.exists_text_of_scan scans
      have shorter : behind.length ≤ cs.length := by simp [same]
      obtain ⟨rs, st', rest, trace, ends⟩ :=
        exists_trace (st.after lexeme (Text.width (c :: text))) behind
      subst same
      cases inRange : lexeme.outOfRange with
      | true => exact ⟨[], st, _, .nil st _, .inr ⟨_, .outOfRange scans length inRange⟩⟩
      | false => exact ⟨_, st', rest, .cons scans length inRange trace, ends⟩
termination_by cs.length
decreasing_by exact Nat.lt_succ_of_le shorter

theorem readings_eq_ok_iff : readings true st 0 cs = .ok rs ↔ ∃ st', Trace st cs rs st' [] := by
  constructor
  · intro read
    obtain ⟨rs', st', rest, trace, rfl | ⟨e, stuck⟩⟩ := exists_trace st cs
    · rw [trace.readings_eq] at read
      cases read
      exact ⟨st', by simpa using trace⟩
    · rw [trace.readings_eq, readings_of_stuck stuck] at read
      cases read
  · rintro ⟨st', trace⟩
    rw [trace.readings_eq]
    simp [readings, Except.map]

theorem readings_eq_error_iff {e : LexError} : readings true st 0 cs = .error e ↔
    ∃ rs st' rest, Trace st cs rs st' rest ∧ Stuck st' rest e := by
  constructor
  · intro read
    obtain ⟨rs, st', rest, trace, rfl | ⟨e', stuck⟩⟩ := exists_trace st cs
    · rw [trace.readings_eq] at read
      cases read
    · rw [trace.readings_eq, readings_of_stuck stuck] at read
      cases read
      exact ⟨rs, st', rest, trace, stuck⟩
  · rintro ⟨rs, st', rest, trace, stuck⟩
    rw [trace.readings_eq, readings_of_stuck stuck]
    rfl

/-- The readings that mean something. -/
def meaningful (rs : List Reading) : List Reading :=
  rs.filter fun r => !r.token.kind.isIgnorable

theorem meaningful_kept {r : Reading} (means : r.token.kind.isIgnorable = false)
    (rs : List Reading) : meaningful (r :: rs) = r :: meaningful rs :=
  List.filter_cons_of_pos (by rw [means]; rfl)

theorem meaningful_dropped {r : Reading} (ignorable : r.token.kind.isIgnorable = true)
    (rs : List Reading) : meaningful (r :: rs) = meaningful rs :=
  List.filter_cons_of_neg (by rw [ignorable]; decide)

theorem meaningful_concat {r : Reading} (rs : List Reading)
    (means : r.token.kind.isIgnorable = false) :
    (meaningful (rs ++ [r])).map Reading.token =
      (meaningful rs).map Reading.token ++ [r.token] := by
  have last : meaningful [r] = [r] := meaningful_kept means []
  rw [meaningful, List.filter_append, ← meaningful, ← meaningful, last, List.map_append]
  rfl

theorem significant_meaningful (rs : List Reading) :
    Token.significant ((meaningful rs).map Reading.token) = (meaningful rs).map Reading.token := by
  simp [Token.significant, meaningful, List.filter_map, Function.comp_def]

theorem readings_false_eq_ok_iff : readings false st 0 cs = .ok rs ↔
    ∃ rs' st', Trace st cs rs' st' [] ∧ meaningful rs' = rs := by
  rw [readings_false]
  constructor
  · intro read
    cases outcome : readings true st 0 cs with
    | error e =>
      rw [outcome] at read
      cases read
    | ok rs' =>
      rw [outcome] at read
      cases read
      obtain ⟨st', trace⟩ := readings_eq_ok_iff.mp outcome
      exact ⟨rs', st', trace, rfl⟩
  · rintro ⟨rs', st', trace, rfl⟩
    rw [readings_eq_ok_iff.mpr ⟨st', trace⟩]
    rfl

end Formulae.Lexer

namespace Formulae.Token

open Formulae.Lexer

variable {mode : Mode} {text : List Char} {ts : List Token}

/-- The tokens of a text are those of a trace to its end. -/
theorem exists_trace_of_all (read : Token.all mode text = .ok ts) :
    ∃ rs st, Trace { mode } text rs st [] ∧ rs.map Reading.token = ts := by
  rw [Token.all] at read
  cases outcome : readings true { mode } 0 text with
  | error e =>
    rw [outcome] at read
    cases read
  | ok rs =>
    rw [outcome] at read
    cases read
    obtain ⟨st, trace⟩ := readings_eq_ok_iff.mp outcome
    exact ⟨rs, st, trace, rfl⟩

/-- Those that mean something are the tokens of the readings that do. -/
theorem exists_trace_of_read (read : Token.read mode text = .ok ts) :
    ∃ rs st, Trace { mode } text rs st [] ∧ (meaningful rs).map Reading.token = ts := by
  rw [Token.read] at read
  cases outcome : readings false { mode } 0 text with
  | error e =>
    rw [outcome] at read
    cases read
  | ok rs =>
    rw [outcome] at read
    cases read
    obtain ⟨all, st, trace, rfl⟩ := readings_false_eq_ok_iff.mp outcome
    exact ⟨all, st, trace, rfl⟩

end Formulae.Token
