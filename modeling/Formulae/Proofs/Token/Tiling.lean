import Mathlib.Data.List.Chain
import Formulae.Proofs.Token.Trace

/-!
The tokens of a text tile it.

Whatever the lexer has read so far ends between two characters, and so does each match that
it finds there and what is decoded within a match. When it comes to the end of the text, the
tokens lie side by side over the whole of it.
-/

namespace Formulae

open Formulae.Lexer

/-- Tokens side by side, from the start of a text to its end. -/
structure Token.Tile (text : List Char) (ts : List Token) : Prop where
  filled : ∀ t ∈ ts, t.span.start < t.span.stop
  starts : ∀ t ∈ ts.head?, t.span.start = 0
  meets : ts.IsChain fun t u => t.span.stop = u.span.start
  ends : ∀ t ∈ ts.getLast?, t.span.stop = Text.width text
  slices : ∀ t ∈ ts, Text.slice? text t.span = some t.text.toList
  covers : String.join (ts.map Token.text) = String.ofList text

/-- Where each character takes one byte, the bytes are the characters. -/
theorem Text.width_of_narrow {cs : List Char} (narrow : ∀ c ∈ cs, c.utf8Size = 1) :
    width cs = cs.length := by
  induction cs with
  | nil => rfl
  | cons c cs inductionHypothesis =>
    rw [List.forall_mem_cons] at narrow
    rw [width_cons, narrow.1, inductionHypothesis narrow.2, List.length_cons, Nat.add_comm]

theorem Text.slice?_of_narrow {cs : List Char} (narrow : ∀ c ∈ cs, c.utf8Size = 1) {i j : Nat}
    (upright : i ≤ j) (inside : j ≤ cs.length) :
    slice? cs ⟨i, j⟩ = some ((cs.take j).drop i) := by
  rw [slice?_eq_some_iff]
  refine ⟨(cs.take j).take i, cs.drop j, ?_, ?_, ?_⟩
  · rw [List.take_append_drop, List.take_append_drop]
  · have front : ∀ c ∈ (cs.take j).take i, c.utf8Size = 1 := fun c member =>
      narrow c (List.mem_of_mem_take (List.mem_of_mem_take member))
    rw [width_of_narrow front, List.length_take, List.length_take]
    dsimp only
    omega
  · have middle : ∀ c ∈ (cs.take j).drop i, c.utf8Size = 1 := fun c member =>
      narrow c (List.mem_of_mem_take (List.mem_of_mem_drop member))
    rw [width_of_narrow middle, List.length_drop, List.length_take]
    dsimp only
    omega

namespace Rule

variable {afterOperand : Bool} {c : Char} {cs : List Char} {lexeme : Lexeme}

/-- A string is a body between two quotes. -/
theorem exists_body_of_string (found : string afterOperand c cs = some lexeme) :
    ∃ body, Text.Quoted.body? cs = some body ∧
      c :: cs.take lexeme.extra = '"' :: (body ++ ['"']) ∧
      lexeme.value = some (.string (String.ofList (Text.Quoted.decode body))) := by
  rw [string] at found
  split at found
  · next quote =>
    obtain ⟨body, reads, rfl⟩ := Option.map_eq_some_iff.mp found
    obtain ⟨⟨behind, rfl⟩, _⟩ := exists_of_body reads
    refine ⟨body, reads, ?_, rfl⟩
    have matched : (body ++ '"' :: behind).take (body.length + 1) = body ++ ['"'] := by
      rw [List.append_cons, List.take_left' (by simp)]
    rw [quote, Lexeme.literal, matched]
  · cases found

theorem slice?_of_quotes (body : List Char) :
    Text.slice? ('"' :: (body ++ ['"'])) ⟨1, Text.width ('"' :: (body ++ ['"'])) - 1⟩ =
      some body := by
  have narrow : ('"' : Char).utf8Size = 1 := by decide
  rw [Text.slice?_eq_some_iff]
  refine ⟨['"'], ['"'], rfl, narrow, ?_⟩
  simp [narrow, Nat.add_comm]

/-- A string stands for what is between the first byte of its text and the last. -/
theorem slice?_of_string (found : string afterOperand c cs = some lexeme) :
    ∃ body, Text.slice? (c :: cs.take lexeme.extra)
        ⟨1, Text.width (c :: cs.take lexeme.extra) - 1⟩ = some body ∧
      lexeme.value = some (.string (String.ofList (Text.Quoted.decode body))) := by
  obtain ⟨body, _, matched, value⟩ := exists_body_of_string found
  exact ⟨body, matched ▸ slice?_of_quotes body, value⟩

theorem le_of_isHexDigit {d : Char} (digit : isHexDigit d = true) : d ≤ 'f' := by
  unfold isHexDigit Color.hexDigit? at digit
  split at digit
  · next range => exact Char.le_trans range.2 (by decide)
  split at digit
  · next range => exact range.2
  split at digit
  · next range => exact Char.le_trans range.2 (by decide)
  · cases digit

theorem utf8Size_of_isHexDigit {d : Char} (digit : isHexDigit d = true) : d.utf8Size = 1 := by
  rw [Char.utf8Size_eq_one_iff]
  exact Nat.le_trans (le_of_isHexDigit digit) (by decide)

/-- Each byte of the text of a color is a character. -/
theorem slice?_of_color (found : color afterOperand c cs = some lexeme) {i j : Nat}
    (upright : i ≤ j) (inside : j ≤ 1 + lexeme.extra) :
    Text.slice? (c :: cs.take lexeme.extra) ⟨i, j⟩ =
      some (((c :: cs.take lexeme.extra).take j).drop i) := by
  have within := local_color.within found
  refine Text.slice?_of_narrow ?_ upright (by simpa [within, Nat.add_comm] using inside)
  rw [color] at found
  split at found
  · next form =>
    cases found
    rw [List.forall_mem_cons, form.1]
    refine ⟨by decide, fun d member => utf8Size_of_isHexDigit ?_⟩
    have digits := (List.take_prefix 9 _).trans (List.takeWhile_prefix (l := cs) isHexDigit)
    rw [Lexeme.literal, ← List.prefix_iff_eq_take.mp digits] at member
    exact List.all_eq_true.mp List.all_takeWhile d (List.mem_of_mem_take member)
  · cases found

end Rule

namespace Lexer

variable {st st' : State} {cs rest : List Char} {rs : List Reading}

/-- The bytes of a lexeme at a place are those between two characters. -/
theorem slice?_of_scan {before : List Char} {c : Char} {text : List Char} {start : Nat}
    (place : start = Text.width before) :
    Text.slice? (before ++ c :: (text ++ rest)) ⟨start, start + Text.width (c :: text)⟩ =
      some (c :: text) := by
  rw [Text.slice?_eq_some_iff]
  exact ⟨before, rest, by simp, place.symm, rfl⟩

namespace Trace

theorem filled (trace : Trace st cs rs st' rest) :
    ∀ r ∈ rs, r.token.span.start < r.token.span.stop := by
  induction trace with
  | nil => simp
  | @cons _ _ c text _ _ _ _ _ _ _ _ inductionHypothesis =>
    rw [List.forall_mem_cons]
    refine ⟨?_, inductionHypothesis⟩
    apply Nat.lt_add_of_pos_right
    exact Text.width_pos (List.cons_ne_nil c text)

/-- The first reading starts where the trace does. -/
theorem starts (trace : Trace st cs rs st' rest) :
    ∀ r ∈ rs.head?, r.token.span.start = st.position := by
  cases trace with
  | nil => simp
  | cons => simp [State.token]

theorem meets (trace : Trace st cs rs st' rest) :
    rs.IsChain fun r s => r.token.span.stop = s.token.span.start := by
  induction trace with
  | nil => exact .nil
  | cons _ _ _ behind inductionHypothesis =>
    rw [List.isChain_cons]
    refine ⟨?_, inductionHypothesis⟩
    intro s member
    exact (behind.starts s member).symm

/-- The last reading ends where the trace does. -/
theorem ends (trace : Trace st cs rs st' rest) :
    ∀ r ∈ rs.getLast?, r.token.span.stop = st'.position := by
  induction trace with
  | nil => simp
  | @cons _ _ _ _ _ _ _ rs _ _ _ behind inductionHypothesis =>
    cases rs with
    | nil =>
      cases behind
      simp [State.token, State.after]
    | cons s rs =>
      rw [List.getLast?_cons_cons]
      exact inductionHypothesis

theorem slices (trace : Trace st cs rs st' rest) {before : List Char}
    (place : st.position = Text.width before) :
    ∀ r ∈ rs, Text.slice? (before ++ cs) r.token.span = some r.token.text.toList := by
  induction trace generalizing before with
  | nil => simp
  | @cons st _ c text cs _ lexeme _ _ _ _ _ inductionHypothesis =>
    rw [List.forall_mem_cons]
    constructor
    · rw [State.token, String.toList_ofList]
      exact slice?_of_scan place
    · have next : (st.after lexeme (Text.width (c :: text))).position =
          Text.width (before ++ c :: text) := by
        rw [Text.width_append, ← place]
        rfl
      simpa using inductionHypothesis next

/-- A trace from the start of a text ends between two characters of it. -/
theorem splitAtByte? (trace : Trace st cs rs st' rest) (first : st.position = 0) :
    Text.splitAtByte? st'.position cs = some (texts rs, rest) := by
  rw [Text.splitAtByte?_eq_some_iff, trace.position_eq, first, Nat.zero_add]
  exact ⟨trace.text_eq, rfl⟩

/-- A trace to the end of a text gives tokens that tile it. -/
theorem tile (trace : Trace st cs rs st' []) (first : st.position = 0) :
    Token.Tile cs (rs.map Reading.token) where
  filled := by simpa using trace.filled
  starts := by simpa [first] using trace.starts
  meets := by simpa [List.isChain_map] using trace.meets
  ends := by
    have text := trace.text_eq
    have position := trace.position_eq
    rw [List.append_nil] at text
    rw [first, Nat.zero_add, ← text] at position
    simpa [position] using trace.ends
  slices := by
    have place : st.position = Text.width [] := first
    simpa using trace.slices place
  covers := by
    have text := trace.text_eq
    apply String.toList_inj.mp
    rw [String.toList_join, String.toList_ofList, List.map_map, List.flatMap_map, text,
      List.append_nil]
    rfl

end Trace

/-- Reading a text comes to its end or to an error, at the place that the error names. -/
theorem exists_run (mode : Mode) (text : List Char) : ∃ rs st rest,
    Trace { mode } text rs st rest ∧
      (rest = [] ∧ Token.all mode text = .ok (rs.map Reading.token) ∨
        ∃ e, Stuck st rest e ∧ e.position = st.position ∧ Token.all mode text = .error e) := by
  obtain ⟨rs, st, rest, trace, ends⟩ := exists_trace { mode } text
  refine ⟨rs, st, rest, trace, ?_⟩
  rcases ends with rfl | ⟨e, stuck⟩
  · left
    rw [Token.all, readings_eq_ok_iff.mpr ⟨st, trace⟩]
    exact ⟨rfl, rfl⟩
  · right
    refine ⟨e, stuck, ?_, ?_⟩
    · cases stuck <;> rfl
    · rw [Token.all, readings_eq_error_iff.mpr ⟨rs, st, rest, trace, stuck⟩]
      rfl

end Lexer

namespace Token

theorem tile_of_all {mode : Mode} {text : List Char} {ts : List Token}
    (read : Token.all mode text = .ok ts) : Tile text ts := by
  obtain ⟨rs, st, trace, rfl⟩ := exists_trace_of_all read
  exact trace.tile rfl

/-- Comments and white space are what is left out. -/
theorem read_eq_filter (mode : Mode) (text : List Char) :
    Token.read mode text = (Token.all mode text).map
      (List.filter fun t => t.kind ≠ .comment ∧ t.kind ≠ .blank) := by
  have means (t : Token) :
      (!t.kind.isIgnorable) = decide (t.kind ≠ .comment ∧ t.kind ≠ .blank) := by
    cases t.kind <;> rfl
  rw [Token.read, Token.all, readings_false]
  cases readings true { mode } 0 text with
  | error e => rfl
  | ok rs => simp only [Except.map, List.filter_map, Function.comp_def, means]

/-- In both modes, reading a text comes to an end after no more lexemes than the text has
characters: at the end of the text, or with an error. At each place on the way the text splits
between two characters, and so it does behind each match found there. What a string or a color
decodes within its match lies between characters as well. The tokens of a text, with comments and
white space, tile it; without them, there is the same error or the same tokens but for the
comments and the white space. -/
theorem tiling (mode : Mode) (text : List Char) :
    (∀ rs st rest, Trace { mode } text rs st rest →
      rs.length ≤ text.length ∧ Text.splitAtByte? st.position text = some (texts rs, rest) ∧
      ∀ c cs lexeme, rest = c :: cs → st.scan c cs = some lexeme →
        lexeme.extra ≤ cs.length ∧
        Text.slice? text ⟨st.position, st.position + Text.width (c :: cs.take lexeme.extra)⟩ =
          some (c :: cs.take lexeme.extra)) ∧
    (∀ afterOperand c cs lexeme, Rule.string afterOperand c cs = some lexeme →
      ∃ body, Text.slice? (c :: cs.take lexeme.extra)
          ⟨1, Text.width (c :: cs.take lexeme.extra) - 1⟩ = some body ∧
        lexeme.value = some (.string (String.ofList (Text.Quoted.decode body)))) ∧
    (∀ afterOperand c cs lexeme, Rule.color afterOperand c cs = some lexeme →
      ∀ i j, i ≤ j → j ≤ 1 + lexeme.extra →
        Text.slice? (c :: cs.take lexeme.extra) ⟨i, j⟩ =
          some (((c :: cs.take lexeme.extra).take j).drop i)) ∧
    (∃ rs st rest, Trace { mode } text rs st rest ∧
      (rest = [] ∧ Token.all mode text = .ok (rs.map Reading.token) ∨
        ∃ e, Stuck st rest e ∧ e.position = st.position ∧ Token.all mode text = .error e)) ∧
    (∀ ts, Token.all mode text = .ok ts → Tile text ts) ∧
    Token.read mode text =
      (Token.all mode text).map (List.filter fun t => t.kind ≠ .comment ∧ t.kind ≠ .blank) := by
  refine ⟨?_, fun _ _ _ _ => Rule.slice?_of_string, fun _ _ _ _ found _ _ =>
    Rule.slice?_of_color found, exists_run mode text, fun ts => tile_of_all,
    read_eq_filter mode text⟩
  intro rs st rest trace
  refine ⟨?_, trace.splitAtByte? rfl, ?_⟩
  · have counted := trace.length_le
    omega
  · rintro c cs lexeme rfl scans
    have place := trace.position_eq
    obtain ⟨taken, behind, rfl, length⟩ := State.exists_text_of_scan scans
    rw [trace.text_eq, ← length, List.take_left]
    refine ⟨by simp, slice?_of_scan ?_⟩
    rw [place]
    exact Nat.zero_add _

/-- A text of a template with letters of two bytes, a comment and a number: ten tokens tile it,
of which six mean something. -/
theorem tiling_of_template :
    let text := "é\x7ba /* ü */ - 1\x7d".toList
    ∃ ts us, Token.all .template text = .ok ts ∧ ts.length = 10 ∧ Tile text ts ∧
      Token.read .template text = .ok us ∧ us.length = 6 ∧
        us = ts.filter fun t => t.kind ≠ .comment ∧ t.kind ≠ .blank := by
  intro text
  obtain ⟨_, _, _, _, tile, kept⟩ := tiling .template text
  have counted : (Token.all .template text).toOption.map List.length = some 10 ∧
      (Token.read .template text).toOption.map List.length = some 6 := by
    decide +kernel
  cases read : Token.all .template text with
  | error e =>
    rw [read] at counted
    cases counted.1
  | ok ts =>
    rw [read] at counted kept
    rw [kept] at counted
    obtain ⟨all, significant⟩ := counted
    exact ⟨ts, _, rfl, Option.some.inj all, tile ts read, kept, Option.some.inj significant, rfl⟩

end Token

end Formulae
