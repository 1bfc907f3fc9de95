import Formulae.Proofs.Token.Extension
import Formulae.Proofs.Token.Tiling

/-!
Where and why texts have no tokens.

The rules of a template match everywhere. Those of an expression leave out texts and colors that
are not complete, and the characters that start nothing. What is in front of an error reads by
itself.
-/

namespace Formulae

open Formulae.Lexer

namespace Text.Quoted

variable {c : Char} {cs : List Char}

/-- One of the quotes closes the text: an even number of backslashes stands before it. -/
def Closed (cs : List Char) : Prop :=
  ∃ body behind, cs = body ++ '"' :: behind ∧ (body.rtakeWhile (· == '\\')).length % 2 = 0

theorem closed_iff : Closed cs ↔ ∃ body behind, cs = body ++ '"' :: behind ∧
    Free.hides body = false := by
  have even (body : List Char) : (body.rtakeWhile (· == '\\')).length % 2 = 0 ↔
      Free.hides body = false := by
    rw [← Bool.not_eq_true, Free.hides_iff]
    omega
  simp only [Closed, even]

theorem closed_escape : Closed ('\\' :: c :: cs) ↔ Closed cs := by
  rw [closed_iff, closed_iff]
  constructor
  · rintro ⟨body, behind, same, bare⟩
    match body with
    | [] => cases same
    | [_] =>
      cases same
      cases bare
    | _ :: _ :: body =>
      cases same
      rw [Free.hides_escape] at bare
      exact ⟨body, behind, rfl, bare⟩
  · rintro ⟨body, behind, rfl, bare⟩
    refine ⟨'\\' :: c :: body, behind, rfl, ?_⟩
    rwa [Free.hides_escape]

theorem closed_cons (quote : c ≠ '"') (backslash : c ≠ '\\') : Closed (c :: cs) ↔ Closed cs := by
  rw [closed_iff, closed_iff]
  constructor
  · rintro ⟨body, behind, same, bare⟩
    cases body with
    | nil =>
      cases same
      exact absurd rfl quote
    | cons _ body =>
      cases same
      rw [Free.hides_cons backslash] at bare
      exact ⟨body, behind, rfl, bare⟩
  · rintro ⟨body, behind, rfl, bare⟩
    refine ⟨c :: body, behind, rfl, ?_⟩
    rwa [Free.hides_cons backslash]

/-- A backslash with nothing behind it closes nothing. -/
theorem not_closed_backslash : ¬ Closed ['\\'] := by
  rintro ⟨body, behind, same, _⟩
  match body with
  | [] => cases same
  | _ :: body => cases body <;> cases same

theorem isSome_body?_iff (cs : List Char) : (body? cs).isSome = true ↔ Closed cs := by
  induction cs using body?.induct with
  | case1 => simp [body?, Closed]
  | case2 cs => exact ⟨fun _ => ⟨[], cs, rfl, rfl⟩, fun _ => rfl⟩
  | case3 => simp [body?, not_closed_backslash]
  | case4 c cs inductionHypothesis =>
    rw [body?, Option.isSome_map, inductionHypothesis, closed_escape]
  | case5 c cs quote last escape inductionHypothesis =>
    have backslash := ne_backslash last escape
    rw [body?_cons quote backslash, Option.isSome_map, inductionHypothesis,
      closed_cons quote backslash]

end Text.Quoted

namespace Rule

variable {afterOperand : Bool} {c : Char} {cs : List Char}

/-- Neither a number, a name, an operator, a marker, white space nor a sentinel starts with the
character. -/
structure Foreign (c : Char) : Prop where
  name : isNameChar c = false
  operator : c ∉ singles
  blank : Text.isBlank c = false
  marker : c ≠ '\x60' ∧ c ≠ '\x7d'
  sentinel : c ≠ ';'

/-- Three digits at the front, of which a color has no fewer. -/
def Colored (cs : List Char) : Prop :=
  ∃ digits behind, cs = digits ++ behind ∧ digits.length = 3 ∧
    ∀ d ∈ digits, isHexDigit d = true

/-- Nothing in an expression starts like this. -/
inductive Unmatched : List Char → Prop
  | quote {cs : List Char} (unclosed : ¬ Text.Quoted.Closed cs) : Unmatched ('"' :: cs)
  | color {cs : List Char} (short : ¬ Colored cs) : Unmatched ('#' :: cs)
  | other {c : Char} {cs : List Char} (quote : c ≠ '"') (color : c ≠ '#') (foreign : Foreign c) :
    Unmatched (c :: cs)

theorem string_eq_none_iff :
    string afterOperand c cs = none ↔ (c = '"' → ¬ Text.Quoted.Closed cs) := by
  rw [← Text.Quoted.isSome_body?_iff, string]
  by_cases quote : c = '"' <;> simp [quote]

theorem colored_iff : Colored cs ↔ 3 ≤ (cs.takeWhile isHexDigit).length := by
  constructor
  · rintro ⟨digits, behind, rfl, three, hex⟩
    rw [List.takeWhile_append_of_pos hex, List.length_append]
    omega
  · intro three
    obtain ⟨behind, text⟩ :=
      (List.take_prefix 3 (cs.takeWhile isHexDigit)).trans (List.takeWhile_prefix isHexDigit)
    refine ⟨_, behind, text.symm, List.length_take_of_le three, fun d member => ?_⟩
    exact List.mem_takeWhile_imp (List.mem_of_mem_take member)

theorem color_eq_none_iff : color afterOperand c cs = none ↔ (c = '#' → ¬ Colored cs) := by
  rw [colored_iff, color]
  split
  · next form =>
    rw [List.length_take] at form
    constructor
    · intro missed
      cases missed
    · intro short
      exact absurd (by omega) (short form.1)
  · next other =>
    rw [List.length_take] at other
    exact ⟨fun _ sign three => other ⟨sign, by omega⟩, fun _ => rfl⟩

theorem isDigit_of_number_eq_none (missed : number afterOperand c cs = none) :
    c.isDigit = false := by
  by_contra digit
  rw [Bool.not_eq_false] at digit
  have apart {d : Char} (other : d.isDigit = false) : c ≠ d := by
    rintro rfl
    cases digit.symm.trans other
  rw [number, splitSign_cons (apart (by decide)) (apart (by decide))] at missed
  dsimp only at missed
  rw [if_neg (by simp)] at missed
  split at missed
  · cases missed
  · rw [List.takeWhile_cons_of_pos digit, if_pos (List.cons_ne_nil _ _)] at missed
    cases missed

/-- The rules whose first characters are operators. -/
theorem operators_eq_none (operator : c ∉ singles) (afterOperand : Bool) (cs : List Char) :
    pair afterOperand c cs = none ∧ comment afterOperand c cs = none ∧
      single afterOperand c cs = none := by
  have paired : ∀ p ∈ pairs, p.1 ∈ singles := by decide
  refine ⟨pair_eq_none (fun d member => operator (paired _ member)) cs, ?_, if_neg operator⟩
  apply comment_eq_none
  rintro rfl
  exact operator (by decide)

end Rule

namespace Lexer

variable {st : State} {c : Char} {cs : List Char}

/-- No rule matches at a foreign character but those of texts and colors. -/
theorem scan_eq_none_iff (expression : st.mode = .expression) :
    st.scan c cs = none ↔ Rule.Foreign c ∧ Rule.string st.afterOperand c cs = none ∧
      Rule.color st.afterOperand c cs = none := by
  rw [State.scan, expression, List.findSome?_eq_none_iff]
  simp only [Mode.rules, List.forall_mem_cons]
  constructor
  · rintro ⟨number, string, color, identifier, _, _, single, marker, blank, sentinel, _⟩
    have digit := Rule.isDigit_of_number_eq_none number
    refine ⟨⟨?_, ?_, ?_, ?_, ?_⟩, string, color⟩
    · rw [Rule.isNameChar, Char.isAlphanum, digit, Bool.or_false]
      simpa [Rule.identifier, Rule.isNameStart] using identifier
    · simpa [Rule.single] using single
    · simpa [Rule.blank] using blank
    · simpa [Rule.templateMarker] using marker
    · simpa [Rule.sentinel] using sentinel
  · rintro ⟨foreign, string, color⟩
    obtain ⟨pair, comment, single⟩ :=
      Rule.operators_eq_none foreign.operator st.afterOperand cs
    have other {d : Char} (operator : d ∈ Rule.singles) : c ≠ d :=
      fun same => foreign.operator (same ▸ operator)
    have unnamed : ¬ Rule.isNameChar c = true := Bool.eq_false_iff.mp foreign.name
    have start : ¬ Rule.isNameStart c = true :=
      fun start => unnamed (isNameChar_of_isNameStart start)
    have digit : c.isDigit = false :=
      Bool.eq_false_iff.mpr fun digit => unnamed (isNameChar_of_isDigit digit)
    have number : Rule.number st.afterOperand c cs = none :=
      Rule.number_eq_none (other (by decide)) (other (by decide)) (other (by decide)) digit
    have marker : ¬ (c = '\x60' ∨ c = '\x7d') := not_or.mpr foreign.marker
    refine ⟨number, string, color, if_neg start, comment, pair, single, if_neg marker, ?_,
      if_neg foreign.sentinel, List.forall_mem_nil _⟩
    exact if_neg (Bool.eq_false_iff.mp foreign.blank)

theorem unmatched_iff (expression : st.mode = .expression) :
    st.scan c cs = none ↔ Rule.Unmatched (c :: cs) := by
  rw [scan_eq_none_iff expression, Rule.string_eq_none_iff, Rule.color_eq_none_iff]
  constructor
  · rintro ⟨foreign, text, color⟩
    by_cases quote : c = '"'
    · subst quote
      exact .quote (text rfl)
    by_cases sign : c = '#'
    · subst sign
      exact .color (color rfl)
    · exact .other quote sign foreign
  · intro unmatched
    cases unmatched with
    | quote unclosed => exact ⟨by constructor <;> decide, fun _ => unclosed, nofun⟩
    | color short => exact ⟨by constructor <;> decide, nofun, fun _ => short⟩
    | other quote sign foreign =>
      exact ⟨foreign, fun same => absurd same quote, fun same => absurd same sign⟩

/-- Every text of a template starts with a marker or with free text, neither of which is out of
range. -/
theorem not_stuck_of_template {e : LexError} (template : st.mode = .template) :
    ¬ Stuck st cs e := by
  have scanned (c : Char) (cs : List Char) :
      ∃ lexeme, st.scan c cs = some lexeme ∧ lexeme.outOfRange = false := by
    by_cases mark : c = '\x7b' ∨ c = '\x60'
    · simp only [State.scan, template, Mode.rules]
      rcases mark with rfl | rfl <;> exact ⟨_, rfl, rfl⟩
    · rw [scan_of_text template mark, Rule.template]
      split
      · next decodes =>
        have stops : Text.Free.Stops (c :: cs) := Text.Free.stops_of_decode (by rw [decodes])
        exact absurd stops.first.symm mark
      · exact ⟨_, rfl, rfl⟩
  intro stuck
  cases stuck with
  | noMatch unmatched =>
    obtain ⟨_, scans, _⟩ := scanned _ _
    cases scans.symm.trans unmatched
  | outOfRange scans _ tooLarge =>
    obtain ⟨_, scans', inRange⟩ := scanned _ _
    cases scans.symm.trans scans'
    cases inRange.symm.trans tooLarge

theorem Stuck.position_eq {e : LexError} (stuck : Stuck st cs e) : e.position = st.position := by
  cases stuck <;> rfl

/-- On the way to an error no place in a template is where the error is. -/
theorem Trace.position_ne_of_template {st₀ : State} {text : List Char} {rs : List Reading}
    {e : LexError} (trace : Trace st₀ text rs st cs) (template : st.mode = .template)
    (failed : readings true st₀ 0 text = .error e) : st.position ≠ e.position := by
  rw [trace.readings_eq] at failed
  cases behind : readings true st 0 cs with
  | ok _ =>
    rw [behind] at failed
    cases failed
  | error e' =>
    rw [behind] at failed
    cases failed
    obtain ⟨rs', st', rest, onward, stuck⟩ := readings_eq_error_iff.mp behind
    rw [stuck.position_eq]
    cases onward with
    | nil => exact absurd stuck (not_stuck_of_template template)
    | @cons _ _ c text _ _ _ _ _ _ _ later =>
      have further := later.position_eq
      have filled := Text.width_pos (List.cons_ne_nil c text)
      simp only [State.after] at further
      omega

end Lexer

namespace Token

variable {mode : Mode} {text : List Char} {e : LexError}

theorem all_eq_error_iff : Token.all mode text = .error e ↔
    ∃ rs st rest, Trace { mode } text rs st rest ∧ Stuck st rest e := by
  rw [← readings_eq_error_iff, Token.all]
  cases readings true { mode } 0 text <;> simp [Except.map]

theorem read_eq_error_iff : Token.read mode text = .error e ↔ Token.all mode text = .error e := by
  rw [read_eq_filter]
  cases Token.all mode text <;> simp [Except.map]

/-- The text in front of an error has tokens by itself. -/
theorem exists_front_of_error (failed : Token.all mode text = .error e) :
    ∃ front ts us, Text.slice? text ⟨0, e.position⟩ = some front ∧
      Token.all mode front = .ok ts ∧ Token.read mode front = .ok us := by
  obtain ⟨rs, st, rest, trace, stuck⟩ := all_eq_error_iff.mp failed
  have slice : Text.slice? text ⟨0, e.position⟩ = some (texts rs) := by
    rw [Text.slice?_eq_some_iff, stuck.position_eq, trace.position_eq]
    exact ⟨[], rest, trace.text_eq, rfl, rfl⟩
  have all : Token.all mode (texts rs) = .ok (rs.map Reading.token) := by
    rw [Token.all, readings_eq_ok_iff.mpr ⟨st, trace.front⟩]
    rfl
  refine ⟨texts rs, _, (rs.map Reading.token).filter fun t => t.kind ≠ .comment ∧ t.kind ≠ .blank,
    slice, all, ?_⟩
  rw [read_eq_filter, all]
  rfl

theorem noMatch_iff {p : Nat} {context : String} :
    Token.all mode text = .error (.noMatch p context) ↔
      ∃ rs st rest, Trace { mode } text rs st rest ∧ st.position = p ∧ st.mode = .expression ∧
        Rule.Unmatched rest ∧ context = LexError.context rest := by
  rw [all_eq_error_iff]
  constructor
  · rintro ⟨rs, st, rest, trace, stuck⟩
    have expression : st.mode = .expression := by
      cases mode : st.mode with
      | expression => rfl
      | template => exact absurd stuck (not_stuck_of_template mode)
    cases stuck with
    | noMatch missed =>
      exact ⟨rs, st, _, trace, rfl, expression, (unmatched_iff expression).mp missed, rfl⟩
  · rintro ⟨rs, st, rest, trace, rfl, expression, unmatched, rfl⟩
    cases rest with
    | nil => cases unmatched
    | cons c cs =>
      exact ⟨rs, st, c :: cs, trace, .noMatch ((unmatched_iff expression).mpr unmatched)⟩

theorem outOfRange_iff {p : Nat} {s : String} :
    Token.all mode text = .error (.outOfRange p s) ↔
      ∃ rs st c cs lexeme, Trace { mode } text rs st (c :: cs) ∧ st.position = p ∧
        st.scan c cs = some lexeme ∧ lexeme.outOfRange = true ∧
        s = String.ofList (c :: cs.take lexeme.extra) := by
  rw [all_eq_error_iff]
  constructor
  · rintro ⟨rs, st, rest, trace, stuck⟩
    cases stuck with
    | outOfRange scans length tooLarge =>
      refine ⟨rs, st, _, _, _, trace, rfl, scans, tooLarge, ?_⟩
      rw [← length, List.take_left]
  · rintro ⟨rs, st, c, cs, lexeme, trace, rfl, scans, tooLarge, rfl⟩
    obtain ⟨taken, behind, rfl, length⟩ := State.exists_text_of_scan scans
    refine ⟨rs, st, _, trace, ?_⟩
    rw [← length, List.take_left]
    exact .outOfRange scans length tooLarge

/-- A number that is out of range is quoted as it stands in the text. -/
theorem slice?_of_outOfRange {p : Nat} {s : String}
    (failed : Token.all mode text = .error (.outOfRange p s)) :
    Text.slice? text ⟨p, p + Text.width s.toList⟩ = some s.toList := by
  obtain ⟨rs, st, c, cs, lexeme, trace, rfl, scans, _, rfl⟩ := outOfRange_iff.mp failed
  obtain ⟨taken, behind, rfl, length⟩ := State.exists_text_of_scan scans
  rw [← length, List.take_left, String.toList_ofList, trace.text_eq]
  apply slice?_of_scan
  rw [trace.position_eq]
  exact Nat.zero_add _

/-- Reading fails at a place that the lexer comes to, and the text in front of the place has tokens
by itself. It fails for want of a rule just where an expression goes on with something that
nothing in an expression starts like, so never in a template. A number that is out of range is
quoted as it is matched. -/
theorem failures_exact (mode : Mode) (text : List Char) :
    (∀ e, Token.read mode text = .error e ↔ Token.all mode text = .error e) ∧
    (∀ e, Token.all mode text = .error e →
      (∃ front ts us, Text.slice? text ⟨0, e.position⟩ = some front ∧
        Token.all mode front = .ok ts ∧ Token.read mode front = .ok us) ∧
      ∀ rs st rest, Trace { mode } text rs st rest → st.mode = .template →
        st.position ≠ e.position) ∧
    (∀ p context, Token.all mode text = .error (.noMatch p context) ↔
      ∃ rs st rest, Trace { mode } text rs st rest ∧ st.position = p ∧ st.mode = .expression ∧
        Rule.Unmatched rest ∧ context = LexError.context rest) ∧
    ∀ p s, (Token.all mode text = .error (.outOfRange p s) ↔
        ∃ rs st c cs lexeme, Trace { mode } text rs st (c :: cs) ∧ st.position = p ∧
          st.scan c cs = some lexeme ∧ lexeme.outOfRange = true ∧
          s = String.ofList (c :: cs.take lexeme.extra)) ∧
      (Token.all mode text = .error (.outOfRange p s) →
        Text.slice? text ⟨p, p + Text.width s.toList⟩ = some s.toList) := by
  refine ⟨fun e => read_eq_error_iff, ?_, fun p context => noMatch_iff,
    fun p s => ⟨outOfRange_iff, slice?_of_outOfRange⟩⟩
  intro e failed
  refine ⟨exists_front_of_error failed, ?_⟩
  intro rs st rest trace template
  apply trace.position_ne_of_template template
  rwa [all_eq_error_iff, ← readings_eq_error_iff] at failed

/-- An at sign in an expression that is embedded in a template, behind a letter of two bytes. -/
theorem failures_exact_of_embed :
    let text := "é\x7b@".toList
    Token.all .template text = .error (.noMatch 3 "@") ∧
      Text.slice? text ⟨0, 3⟩ = some "é\x7b".toList ∧
      (∃ ts, Token.all .template "é\x7b".toList = .ok ts) ∧
      ∃ rs st rest, Trace { mode := .template } text rs st rest ∧ st.position = 3 ∧
        st.mode = .expression ∧ Rule.Unmatched rest := by
  intro text
  have failed : Token.all .template text = .error (.noMatch 3 "@") := by rfl
  have sliced : Text.slice? text ⟨0, 3⟩ = some "é\x7b".toList := by decide
  obtain ⟨_, front, noMatch, _⟩ := failures_exact .template text
  obtain ⟨before, ts, _, slice, read, _⟩ := (front _ failed).1
  obtain ⟨rs, st, rest, trace, place, expression, unmatched, _⟩ := (noMatch _ _).mp failed
  cases slice.symm.trans sliced
  exact ⟨failed, sliced, ⟨ts, read⟩, rs, st, rest, trace, place, expression, unmatched⟩

end Token

end Formulae
