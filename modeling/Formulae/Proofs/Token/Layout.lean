import Formulae.Proofs.Grammar.Unplaced
import Formulae.Proofs.Token.Context

/-!
Texts in another layout.

White space stands for other white space and for comments, and more of it may stand between the
tokens of an expression. What a token of an expression is does not depend on the white space
behind it, so the tokens that mean something are read again.
-/

namespace Formulae

open Formulae.Lexer

section Blanks

/-- White space, or nothing. -/
def Text.Blanks (cs : List Char) : Prop := ∀ c ∈ cs, isBlank c = true

variable {c d : Char}

theorem Text.Blanks.exists_cons {blanks : List Char} (isBlank : Text.Blanks blanks)
    (filled : blanks ≠ []) : ∃ b bs, blanks = b :: bs ∧ Text.isBlank b = true := by
  obtain ⟨b, bs, rfl⟩ := List.exists_cons_of_ne_nil filled
  exact ⟨b, bs, rfl, isBlank b (.head _)⟩

theorem Text.ne_of_isBlank (blank : isBlank c = true) (solid : isBlank d = false) : c ≠ d := by
  rintro rfl
  rw [blank] at solid
  cases solid

theorem isNameChar_of_isBlank (blank : Text.isBlank c = true) : Rule.isNameChar c = false := by
  rw [Bool.eq_false_iff]
  intro name
  exact Text.ne_of_isBlank blank (Text.isBlank_of_isNameChar name) rfl

end Blanks

namespace Rule

variable {afterOperand : Bool} {c b : Char} {front bs : List Char} {lexeme : Lexeme}

/-- No token of an expression goes on with the character, unless it is a text, a comment or
white space. -/
structure Breaks (b : Char) : Prop where
  name : isNameChar b = false
  point : b ≠ '.'
  comment : b ≠ '/' ∧ b ≠ '*'
  pair : ∀ c, (c, b) ∉ pairs

theorem Breaks.apart (breaks : Breaks b) (cs : List Char) : Apart (b :: cs) :=
  apart_cons breaks.name breaks.point cs

theorem solid_of_mem_pairs {d : Char} (member : (c, d) ∈ pairs) :
    Text.isBlank c = false ∧ Text.isBlank d = false := by
  have solid : (pairs.all fun p => !Text.isBlank p.1 && !Text.isBlank p.2) = true := by decide
  simpa using List.all_eq_true.mp solid _ member

theorem breaks_of_isBlank (blank : Text.isBlank b = true) : Breaks b where
  name := isNameChar_of_isBlank blank
  point := Text.ne_of_isBlank blank (by decide)
  comment := ⟨Text.ne_of_isBlank blank (by decide), Text.ne_of_isBlank blank (by decide)⟩
  pair c member := by
    rw [(solid_of_mem_pairs member).2] at blank
    cases blank

/-- What means something stays with such a character behind it, and the rule does not match
because of one. A text that is not closed could be, further on. -/
structure Firm (rule : Rule) : Prop where
  keeps {afterOperand : Bool} {c b : Char} {front bs : List Char} {lexeme : Lexeme}
    (breaks : Breaks b) (means : lexeme.kind.isIgnorable = false)
    (found : rule afterOperand c front = some lexeme) :
    rule afterOperand c (front ++ b :: bs) = some lexeme
  fails {afterOperand : Bool} {c b : Char} {front bs : List Char}
    (breaks : Breaks b) (unquoted : c ≠ '"')
    (missed : rule afterOperand c front = none) :
    rule afterOperand c (front ++ b :: bs) = none

theorem firm_of_eq {rule : Rule}
    (same : ∀ afterOperand c front b bs, Breaks b →
      rule afterOperand c (front ++ b :: bs) = rule afterOperand c front) : Firm rule where
  keeps breaks _ found := (same _ _ _ _ _ breaks).trans found
  fails breaks _ missed := (same _ _ _ _ _ breaks).trans missed

section Runs

variable {p : Char → Bool} {rest : List Char} (apart : Apart rest)
  (part : ∀ c, p c = true → isNameChar c = true)

include apart part

theorem takeWhile_apart (front : List Char) : (front ++ rest).takeWhile p = front.takeWhile p := by
  rw [List.takeWhile_append]
  split
  · next whole =>
    rw [apart.takeWhile part, List.append_nil, (List.takeWhile_prefix p).eq_of_length whole]
  · rfl

theorem dropWhile_apart (front : List Char) :
    (front ++ rest).dropWhile p = front.dropWhile p ++ rest := by
  apply dropWhile_eq_of_length_le
  rw [takeWhile_apart apart part]
  exact (List.takeWhile_prefix p).length_le

end Runs

theorem fractionOf_apart {rest : List Char} (apart : Apart rest) (front : List Char) :
    fractionOf (front ++ rest) = fractionOf front := by
  cases front with
  | nil => exact apart.point
  | cons c cs =>
    by_cases point : c = '.'
    · subst point
      exact takeWhile_apart apart (fun _ => isNameChar_of_isDigit) cs
    · rw [List.cons_append, fractionOf_cons point, fractionOf_cons point]

theorem firm_number : Firm number := by
  refine firm_of_eq fun afterOperand c front b bs breaks => ?_
  have apart := breaks.apart bs
  rw [number, number, splitSign_append]
  dsimp only
  rw [takeWhile_apart apart fun _ => isNameChar_of_isDigit,
    dropWhile_apart apart fun _ => isNameChar_of_isDigit, fractionOf_apart apart]

theorem keeps_string (found : string afterOperand c front = some lexeme) (rest : List Char) :
    string afterOperand c (front ++ rest) = some lexeme := by
  rw [string] at found ⊢
  split at found
  · next quote =>
    obtain ⟨body, reads, rfl⟩ := Option.map_eq_some_iff.mp found
    obtain ⟨⟨behind, rfl⟩, again⟩ := exists_of_body reads
    rw [if_pos quote, List.append_assoc, List.cons_append, again]
    rfl
  · cases found

theorem firm_string : Firm string where
  keeps _ _ found := keeps_string found _
  fails _ unquoted _ := if_neg unquoted

theorem firm_color : Firm color := by
  refine firm_of_eq fun afterOperand c front b bs breaks => ?_
  rw [color, color, takeWhile_apart (breaks.apart bs) fun _ => isNameChar_of_isHexDigit]

theorem firm_identifier : Firm identifier := by
  refine firm_of_eq fun afterOperand c front b bs breaks => ?_
  rw [identifier, identifier, takeWhile_apart (breaks.apart bs) fun _ => id]

theorem firm_comment : Firm comment where
  keeps _ means found := by
    unfold comment at found
    split at found <;> cases found <;> cases means
  fails {_ c b front bs} breaks _ missed := by
    cases front with
    | nil =>
      obtain ⟨slash, star⟩ := breaks.comment
      rw [List.nil_append, comment_cons, if_neg fun form => slash form.2,
        if_neg fun form => star form.2]
    | cons d ds =>
      rw [comment_cons] at missed
      rw [List.cons_append, comment_cons]
      split at missed
      · cases missed
      next noLine =>
      split at missed
      · cases missed
      next noBlock => rw [if_neg noLine, if_neg noBlock]

theorem pair_eq_none (other : ∀ d, (c, d) ∉ pairs) (cs : List Char) :
    pair afterOperand c cs = none := by
  cases cs with
  | nil => rfl
  | cons d ds => rw [pair, if_neg (other d)]

theorem comment_eq_none (other : c ≠ '/') (cs : List Char) : comment afterOperand c cs = none := by
  cases cs with
  | nil => exact comment_nil _ c
  | cons d ds => rw [comment_cons, if_neg fun form => other form.1, if_neg fun form => other form.1]

theorem firm_pair : Firm pair := by
  refine firm_of_eq fun afterOperand c front b bs breaks => ?_
  cases front with
  | cons d ds => rfl
  | nil => exact if_neg (breaks.pair c)

theorem firm_blank : Firm blank where
  keeps _ means found := by
    rw [Rule.blank] at found
    split at found <;> cases found
    cases means
  fails _ _ missed := by
    rw [Rule.blank] at missed ⊢
    split at missed
    · cases missed
    · next solid => rw [if_neg solid]

end Rule

theorem Mode.firm_of_mem_rules {rule : Rule} (member : rule ∈ Mode.expression.rules) :
    rule.Firm := by
  simp only [rules, List.mem_cons, List.not_mem_nil, or_false] at member
  rcases member with rfl | rfl | rfl | rfl | rfl | rfl | rfl | rfl | rfl | rfl
  · exact Rule.firm_number
  · exact Rule.firm_string
  · exact Rule.firm_color
  · exact Rule.firm_identifier
  · exact Rule.firm_comment
  · exact Rule.firm_pair
  · exact Rule.firm_of_eq fun _ _ _ _ _ _ => rfl
  · exact Rule.firm_of_eq fun _ _ _ _ _ _ => rfl
  · exact Rule.firm_blank
  · exact Rule.firm_of_eq fun _ _ _ _ _ _ => rfl

theorem Text.Free.decode_append_of_lt {front : List Char}
    (settled : (decode front).1 < front.length) (rest : List Char) :
    decode (front ++ rest) = decode front := by
  induction front using decode.induct with
  | case1 => cases settled
  | case2 c cs mark n text decoded inductionHypothesis =>
    rw [decode_escape mark] at settled ⊢
    rw [List.cons_append, List.cons_append, decode_escape mark,
      inductionHypothesis (Nat.lt_of_add_lt_add_right settled)]
  | case3 c cs plain n text decoded inductionHypothesis =>
    have plain : isMark c = false := by simpa using plain
    rw [decode_backslash plain] at settled ⊢
    rw [List.cons_append, List.cons_append, decode_backslash plain, ← List.cons_append,
      inductionHypothesis (Nat.lt_of_succ_lt_succ settled)]
  | case4 c cs last stops =>
    exact (stops_of_mark stops (cs ++ rest)).trans (stops_of_mark stops cs).symm
  | case5 c cs last other n text decoded inductionHypothesis =>
    by_cases backslash : c = '\\'
    · subst backslash
      cases cs with
      | cons d ds => exact absurd rfl (last d ds rfl)
      | nil => exact absurd settled (Nat.lt_irrefl 1)
    · have plain : isMark c = false := by simpa [isMark, backslash] using other
      rw [decode_cons plain] at settled ⊢
      rw [List.cons_append, decode_cons plain,
        inductionHypothesis (Nat.lt_of_succ_lt_succ settled)]

namespace Lexer.State

variable {st : State} {c b : Char} {front bs : List Char} {lexeme : Lexeme}

/-- Only a text starts with a quote. -/
theorem scan_quote (expression : st.mode = .expression) (cs : List Char) :
    st.scan '"' cs = Rule.string st.afterOperand '"' cs := by
  have number : Rule.number st.afterOperand '"' cs = none :=
    Rule.number_eq_none (by decide) (by decide) (by decide) (by decide)
  have color : Rule.color st.afterOperand '"' cs = none := by
    rw [Rule.color, if_neg (by simp)]
  have pair : Rule.pair st.afterOperand '"' cs = none :=
    Rule.pair_eq_none (by simp [Rule.pairs]) cs
  have comment : Rule.comment st.afterOperand '"' cs = none :=
    Rule.comment_eq_none (by decide) cs
  simp only [State.scan, expression, Mode.rules, List.findSome?_cons, number, color, pair, comment]
  cases Rule.string st.afterOperand '"' cs <;> rfl

/-- In an expression, what means something is the same with white space behind it, or with
another character that breaks tokens off. -/
theorem scan_break (expression : st.mode = .expression) (scans : st.scan c front = some lexeme)
    (means : lexeme.kind.isIgnorable = false) (breaks : Rule.Breaks b) :
    st.scan c (front ++ b :: bs) = some lexeme := by
  by_cases quote : c = '"'
  · subst quote
    rw [scan_quote expression] at scans ⊢
    exact Rule.keeps_string scans _
  · rw [scan, expression, List.findSome?_eq_some_iff] at scans ⊢
    obtain ⟨tried, rule, others, rules, found, missed⟩ := scans
    have firm {r : Rule} (member : r ∈ tried ++ rule :: others) : r.Firm :=
      Mode.firm_of_mem_rules (rules ▸ member)
    refine ⟨tried, rule, others, rules, ?_, fun r member => ?_⟩
    · exact (firm (by simp)).keeps breaks means found
    · exact (firm (by simp [member])).fails breaks quote (missed r member)

/-- In the body of a template, what ends before the end of the text has ended. -/
theorem scan_settled (template : st.mode = .template) (scans : st.scan c front = some lexeme)
    (settled : lexeme.extra < front.length) (rest : List Char) :
    st.scan c (front ++ rest) = some lexeme := by
  simp only [scan, template, Mode.rules, List.findSome?_cons] at scans ⊢
  have marker : Rule.expressionMarker st.afterOperand c (front ++ rest) =
      Rule.expressionMarker st.afterOperand c front := rfl
  rw [marker]
  split at scans
  · exact scans
  · split at scans
    · next lexeme' found =>
      cases scans
      have longer : Rule.template st.afterOperand c (front ++ rest) = some lexeme := by
        rw [Rule.template] at found ⊢
        split at found
        · cases found
        · next extra text decoded =>
          cases found
          have inside : (Text.Free.decode (c :: front)).1 < (c :: front).length := by
            rw [decoded]
            exact Nat.succ_lt_succ settled
          rw [← List.cons_append, Text.Free.decode_append_of_lt inside, decoded]
      rw [longer]
    · cases scans

end Lexer.State

namespace Rule

variable {afterOperand : Bool} {c : Char} {text rest : List Char} {lexeme : Lexeme}

theorem lineLength_le_append (front rest : List Char) :
    lineLength front ≤ lineLength (front ++ rest) := by
  induction front with
  | nil => exact Nat.zero_le _
  | cons c cs inductionHypothesis =>
    rw [List.cons_append, lineLength, lineLength]
    split
    · exact Nat.le_refl _
    · exact Nat.add_le_add_left inductionHypothesis 1

/-- A line that ends before the end of the text ends there with any text behind it. -/
theorem lineLength_closed (length : lineLength (text ++ rest) = text.length) (more : rest ≠ [])
    (rest' : List Char) : lineLength (text ++ rest') = text.length := by
  induction text with
  | nil =>
    obtain ⟨c, cs, rfl⟩ := List.exists_cons_of_ne_nil more
    rw [List.nil_append, lineLength] at length
    split at length
    · cases length
    · exact absurd length (by simp)
  | cons c cs inductionHypothesis =>
    rw [List.cons_append, lineLength, List.length_cons] at length ⊢
    split at length
    · next feed => rwa [if_pos feed]
    · next other => rw [if_neg other, inductionHypothesis (by omega), Nat.add_comm]

theorem blockLength_le_append (front rest : List Char) :
    blockLength front ≤ blockLength (front ++ rest) := by
  induction front using blockLength.induct with
  | case1 => exact Nat.zero_le _
  | case2 cs => exact Nat.le_refl _
  | case3 c cs stays inductionHypothesis =>
    rw [blockLength_cons stays, List.cons_append]
    by_cases closes : ∃ ds, c = '*' ∧ cs ++ rest = '/' :: ds
    · obtain ⟨ds, rfl, closing⟩ := closes
      cases cs with
      | nil =>
        rw [closing]
        exact Nat.le_succ 1
      | cons d ds' =>
        cases closing
        exact absurd rfl (stays ds' rfl)
    · rw [blockLength_cons fun ds star closing => closes ⟨ds, star, closing⟩]
      exact Nat.add_le_add_left inductionHypothesis 1

theorem blockLength_pos (c : Char) (cs : List Char) : 0 < blockLength (c :: cs) := by
  by_cases closes : ∃ ds, c = '*' ∧ cs = '/' :: ds
  · obtain ⟨ds, rfl, rfl⟩ := closes
    exact Nat.zero_lt_two
  · rw [blockLength_cons fun ds star closing => closes ⟨ds, star, closing⟩, Nat.add_comm]
    exact Nat.succ_pos _

/-- A block that ends before the end of the text ends there with any text behind it. -/
theorem blockLength_closed (length : blockLength (text ++ rest) = text.length) (more : rest ≠ [])
    (rest' : List Char) : blockLength (text ++ rest') = text.length := by
  induction text using blockLength.induct with
  | case1 =>
    obtain ⟨c, cs, rfl⟩ := List.exists_cons_of_ne_nil more
    exact absurd length (Nat.ne_of_gt (blockLength_pos c cs))
  | case2 cs => exact length
  | case3 c cs stays inductionHypothesis =>
    cases cs with
    | nil =>
      -- A block of one character is not closed, so nothing is behind it.
      obtain ⟨d, ds, rfl⟩ := List.exists_cons_of_ne_nil more
      rw [List.singleton_append, List.length_singleton] at length
      by_cases closes : c = '*' ∧ d = '/'
      · obtain ⟨rfl, rfl⟩ := closes
        cases length
      · rw [blockLength_cons (by rintro _ rfl ⟨⟩; exact closes ⟨rfl, rfl⟩)] at length
        have positive := blockLength_pos d ds
        omega
    | cons d ds =>
      have staysBefore (more : List Char) : ∀ ds', c = '*' → d :: ds ++ more ≠ '/' :: ds' := by
        rintro ds' rfl closing
        cases closing
        exact stays ds rfl rfl
      rw [List.cons_append, blockLength_cons (staysBefore _), List.length_cons] at length ⊢
      rw [inductionHypothesis (by omega), Nat.add_comm]

/-- A comment before the end of the text is the same whatever text is behind it. -/
theorem comment_closed (found : comment afterOperand c (text ++ rest) = some lexeme)
    (length : text.length = lexeme.extra) (more : rest ≠ []) (rest' : List Char) :
    comment afterOperand c (text ++ rest') = some lexeme := by
  cases text with
  | nil =>
    obtain ⟨d, ds, rfl⟩ := List.exists_cons_of_ne_nil more
    rw [List.nil_append, comment_cons] at found
    split at found
    · cases found
      simp only [List.length_nil] at length
      omega
    split at found
    · cases found
      simp only [List.length_nil] at length
      omega
    · cases found
  | cons d ds =>
    rw [List.cons_append, comment_cons] at found
    rw [List.length_cons] at length
    rw [List.cons_append, comment_cons]
    split at found
    · next slashes =>
      cases found
      dsimp only at length
      have line : lineLength (ds ++ rest) = ds.length := by omega
      rw [if_pos slashes, lineLength_closed line more, line]
    next noLine =>
    split at found
    · next opening =>
      cases found
      dsimp only at length
      have block : blockLength (ds ++ rest) = ds.length := by omega
      rw [if_neg noLine, if_pos opening, blockLength_closed block more, block]
    · cases found

/-- With more text behind it, a comment is one still, and no shorter. -/
theorem exists_comment_append (found : comment afterOperand c text = some lexeme)
    (rest : List Char) : ∃ n, lexeme.extra ≤ n ∧
      comment afterOperand c (text ++ rest) = some { kind := .comment, extra := n } := by
  cases text with
  | nil =>
    rw [comment_nil] at found
    cases found
  | cons d ds =>
    rw [comment_cons] at found
    rw [List.cons_append, comment_cons]
    split at found
    · next slashes =>
      cases found
      exact ⟨_, Nat.add_le_add_left (lineLength_le_append ds rest) 1, if_pos slashes⟩
    next noLine =>
    split at found
    · next opening =>
      cases found
      refine ⟨_, Nat.add_le_add_left (blockLength_le_append ds rest) 1, ?_⟩
      rw [if_neg noLine, if_pos opening]
    · cases found

end Rule

namespace Lexer

variable {st st' : State} {mode : Mode} {afterOperand : Bool} {c : Char} {cs text : List Char}
  {lexeme : Lexeme} {rs : List Reading}

/-- Only a comment starts as one. -/
theorem scan_of_comment (expression : st.mode = .expression)
    (found : Rule.comment st.afterOperand c cs = some lexeme) : st.scan c cs = some lexeme := by
  have slash : c = '/' := by
    by_contra other
    rw [Rule.comment_eq_none other] at found
    cases found
  subst slash
  have number : Rule.number st.afterOperand '/' cs = none :=
    Rule.number_eq_none (by decide) (by decide) (by decide) (by decide)
  have color : Rule.color st.afterOperand '/' cs = none := by
    rw [Rule.color, if_neg (by simp)]
  simp only [State.scan, expression, Mode.rules, List.findSome?_cons, number, color, found]
  rfl

/-- Only white space starts as white space. -/
theorem scan_of_isBlank (expression : st.mode = .expression) (blank : Text.isBlank c = true)
    (cs : List Char) : st.scan c cs =
      some { kind := .blank, extra := (cs.takeWhile Text.isBlank).length } := by
  have other {d : Char} (solid : Text.isBlank d = false) : c ≠ d := Text.ne_of_isBlank blank solid
  have name := isNameChar_of_isBlank blank
  have digit : c.isDigit = false := by
    rw [Bool.eq_false_iff]
    intro digit
    rw [isNameChar_of_isDigit digit] at name
    cases name
  have number : Rule.number st.afterOperand c cs = none :=
    Rule.number_eq_none (other (by decide)) (other (by decide)) (other (by decide)) digit
  have string : Rule.string st.afterOperand c cs = none := if_neg (other (by decide))
  have color : Rule.color st.afterOperand c cs = none := by
    rw [Rule.color, if_neg fun form => other (by decide) form.1]
  have identifier : Rule.identifier st.afterOperand c cs = none := by
    refine if_neg fun start => ?_
    rw [isNameChar_of_isNameStart start] at name
    cases name
  have comment : Rule.comment st.afterOperand c cs = none :=
    Rule.comment_eq_none (other (by decide)) cs
  have pair : Rule.pair st.afterOperand c cs = none := by
    refine Rule.pair_eq_none (fun d member => ?_) cs
    rw [(Rule.solid_of_mem_pairs member).1] at blank
    cases blank
  have single : Rule.single st.afterOperand c cs = none := by
    refine if_neg fun member => ?_
    have solid : (Rule.singles.all fun d => !Text.isBlank d) = true := by decide
    exact other (by simpa using List.all_eq_true.mp solid c member) rfl
  have marker : Rule.templateMarker st.afterOperand c cs = none := by
    refine if_neg ?_
    rintro (rfl | rfl) <;> cases blank
  simp only [State.scan, expression, Mode.rules, List.findSome?_cons, number, string, color,
    identifier, comment, pair, single, marker, Rule.blank, blank, if_true]

theorem Reads.past {rest : List Char} (reads : Reads st text rest [] st') :
    tokens st (text ++ rest) = tokens st' rest := by
  rw [reads]
  cases tokens st' rest <;> rfl

/-- White space at the front is read past. -/
theorem tokens_dropWhile_isBlank (position : Nat) (cs : List Char) :
    tokens ⟨.expression, afterOperand, position⟩ cs =
      tokens ⟨.expression, afterOperand, position + Text.width (cs.takeWhile Text.isBlank)⟩
        (cs.dropWhile Text.isBlank) := by
  cases cs with
  | nil => rfl
  | cons c cs =>
    cases blank : Text.isBlank c with
    | false =>
      rw [List.takeWhile_cons_of_neg (by simp [blank]),
        List.dropWhile_cons_of_neg (by simp [blank])]
      rfl
    | true =>
      have scans : State.scan ⟨.expression, afterOperand, position⟩ c
          (cs.takeWhile Text.isBlank ++ cs.dropWhile Text.isBlank) =
            some { kind := .blank, extra := (cs.takeWhile Text.isBlank).length } := by
        rw [List.takeWhile_append_dropWhile]
        exact scan_of_isBlank rfl blank cs
      have reads : Reads ⟨.expression, afterOperand, position⟩ (c :: cs.takeWhile Text.isBlank)
          (cs.dropWhile Text.isBlank) [] ⟨.expression, afterOperand,
            position + Text.width (c :: cs.takeWhile Text.isBlank)⟩ :=
        Reads.of_scan scans rfl rfl
      have past := reads.past
      rw [List.cons_append, List.takeWhile_append_dropWhile] at past
      rwa [List.takeWhile_cons_of_pos blank, List.dropWhile_cons_of_pos blank]

/-- So is any white space before the rest of a text. -/
theorem tokens_blanks (position : Nat) {blanks : List Char} (isBlank : Text.Blanks blanks)
    (cs : List Char) : tokens ⟨.expression, afterOperand, position⟩ (blanks ++ cs) =
      tokens ⟨.expression, afterOperand, position + Text.width blanks⟩ cs := by
  rw [tokens_dropWhile_isBlank position (blanks ++ cs), tokens_dropWhile_isBlank _ cs,
    List.takeWhile_append_of_pos isBlank, List.dropWhile_append_of_pos isBlank, Text.width_append,
    Nat.add_assoc]

/-- White space that may be put at a boundary between tokens. There is none within the body of a
template, where it would be text. -/
def Gap (mode : Mode) (cs : List Char) : Prop :=
  Text.Blanks cs ∧ (mode = .template → cs = [])

/-- Another layout of a text, of which these are the readings and the last mode. A token stays,
or as white space or a comment it becomes some white space. At each boundary at which the lexer
is in an expression there may be more white space. -/
inductive Relaid (last : Mode) : List Reading → List Char → Prop
  | ends {gap : List Char} (isGap : Gap last gap) : Relaid last [] gap
  | stays {r : Reading} {rs : List Reading} {gap cs : List Char} (isGap : Gap r.state.mode gap)
      (behind : Relaid last rs cs) : Relaid last (r :: rs) (gap ++ (r.token.text.toList ++ cs))
  | replaced {r : Reading} {rs : List Reading} {gap blanks cs : List Char}
      (isGap : Gap r.state.mode gap) (ignorable : r.token.kind.isIgnorable = true)
      (isBlank : Text.Blanks blanks) (filled : blanks ≠ []) (behind : Relaid last rs cs) :
      Relaid last (r :: rs) (gap ++ (blanks ++ cs))

/-- A text is a layout of itself. -/
theorem Relaid.same (last : Mode) (rs : List Reading) : Relaid last rs (texts rs) := by
  have none (mode : Mode) : Gap mode [] := ⟨by simp [Text.Blanks], fun _ => rfl⟩
  induction rs with
  | nil => exact .ends (none last)
  | cons r rs inductionHypothesis => exact .stays (none r.state.mode) inductionHypothesis

/-- Up to a place the layouts are the same, and there the new one ends or has white space. -/
theorem Relaid.exists_front {laid : List Char} {last : Mode} (relaid : Relaid last rs laid) :
    ∃ front old new, texts rs = front ++ old ∧ laid = front ++ new ∧
      (new = [] ∨ ∃ b bs, new = b :: bs ∧ Text.isBlank b = true) := by
  have spaced {rs : List Reading} {gap : List Char} (isGap : Text.Blanks gap) (filled : gap ≠ [])
      (cs : List Char) : ∃ front old new, texts rs = front ++ old ∧ gap ++ cs = front ++ new ∧
        (new = [] ∨ ∃ b bs, new = b :: bs ∧ Text.isBlank b = true) := by
    obtain ⟨b, bs, rfl, blank⟩ := isGap.exists_cons filled
    exact ⟨[], texts rs, b :: (bs ++ cs), rfl, rfl, .inr ⟨b, bs ++ cs, rfl, blank⟩⟩
  induction relaid with
  | @ends gap isGap =>
    by_cases filled : gap = []
    · subst filled
      exact ⟨[], [], [], rfl, rfl, .inl rfl⟩
    · simpa using spaced isGap.1 filled []
  | @stays r rs gap cs isGap behind inductionHypothesis =>
    by_cases filled : gap = []
    · subst filled
      obtain ⟨front, old, new, text, rfl, stops⟩ := inductionHypothesis
      refine ⟨r.token.text.toList ++ front, old, new, ?_, by simp, stops⟩
      rw [texts, List.flatMap_cons, List.append_assoc, ← text, texts]
    · exact spaced isGap.1 filled _
  | @replaced r rs gap blanks cs isGap ignorable isBlank filled behind inductionHypothesis =>
    obtain ⟨b, bs, rfl, blank⟩ := isBlank.exists_cons filled
    rw [← List.append_assoc]
    refine spaced (fun d member => ?_) (by simp) cs
    exact (List.mem_append.mp member).elim (isGap.1 d) (isBlank d)

/-- In the body of a template, what comes first stays first. -/
theorem Relaid.first {laid : List Char} (trace : Trace st cs rs st' [])
    (relaid : Relaid st'.mode rs laid) (template : st.mode = .template) :
    laid = [] ∨ ∃ d ds ds', laid = d :: ds ∧ cs = d :: ds' := by
  cases trace with
  | nil =>
    cases relaid with
    | ends isGap => exact .inl (isGap.2 template)
  | cons scans length inRange behind =>
    cases relaid with
    | stays isGap =>
      rw [isGap.2 template, State.token, String.toList_ofList]
      exact .inr ⟨_, _, _, rfl, rfl⟩
    | replaced _ ignorable =>
      have means := (scanned_template scans template).1
      rw [State.token] at ignorable
      rw [ignorable] at means
      cases means

/-- In the body of a template, what is no marker is text, and the text goes on. -/
theorem mode_after_of_text (scans : st.scan c cs = some lexeme) (template : st.mode = .template)
    (isText : ¬ (c = '\x7b' ∨ c = '\x60')) (width : Nat) :
    (st.after lexeme width).mode = .template := by
  rw [not_or] at isText
  have marker : Rule.expressionMarker st.afterOperand c cs = none := by
    rw [Rule.expressionMarker, if_neg isText.1, if_neg isText.2]
  simp only [State.scan, template, Mode.rules, List.findSome?_cons, marker] at scans
  split at scans
  · next found =>
    cases scans
    rw [Rule.template] at found
    split at found <;> cases found
    exact template
  · cases scans

/-- What means something is the same in front of another layout of the text behind it. -/
theorem scan_relaid {laid : List Char} {width : Nat} (scans : st.scan c (text ++ cs) = some lexeme)
    (length : text.length = lexeme.extra) (means : lexeme.kind.isIgnorable = false)
    (behind : Trace (st.after lexeme width) cs rs st' []) (relaid : Relaid st'.mode rs laid) :
    st.scan c (text ++ laid) = some lexeme := by
  cases mode : st.mode with
  | expression =>
    obtain ⟨front, old, new, tiles, rfl, stops⟩ := relaid.exists_front
    have whole := behind.text_eq
    rw [List.append_nil, tiles] at whole
    rw [whole, ← List.append_assoc] at scans
    have alone := State.scan_front scans (by simp [← length])
    rw [← List.append_assoc]
    rcases stops with rfl | ⟨b, bs, rfl, blank⟩
    · rwa [List.append_nil]
    · exact State.scan_break mode alone means (Rule.breaks_of_isBlank blank)
  | template =>
    by_cases mark : c = '\x7b' ∨ c = '\x60'
    · have marker (cs : List Char) : st.scan c cs = Rule.expressionMarker st.afterOperand c [] := by
        simp only [State.scan, mode, Mode.rules, List.findSome?_cons]
        rcases mark with rfl | rfl <;> rfl
      rwa [marker] at scans ⊢
    · have inside := mode_after_of_text scans mode mark width
      rcases Relaid.first behind relaid inside with rfl | ⟨d, ds, ds', rfl, rfl⟩
      · rw [List.append_nil]
        exact State.scan_front scans (Nat.le_of_eq length.symm)
      · rw [List.append_cons] at scans ⊢
        have alone := State.scan_front scans (by simp [← length])
        exact State.scan_settled mode alone (by simp [← length]) ds

/-- A comment or white space, which only expressions have. -/
theorem ignored_of_scan (scans : st.scan c cs = some lexeme)
    (ignorable : lexeme.kind.isIgnorable = true) : st.mode = .expression ∧
      (Rule.comment st.afterOperand c cs = some lexeme ∨
        Rule.blank st.afterOperand c cs = some lexeme) := by
  have not (kind : lexeme.kind = .literal ∨ lexeme.kind = .identifier ∨ lexeme.kind = .operator ∨
      lexeme.kind = .sentinel) : False := by
    rcases kind with kind | kind | kind | kind <;> rw [kind] at ignorable <;> cases ignorable
  cases mode : st.mode with
  | template =>
    rw [(scanned_template scans mode).1] at ignorable
    cases ignorable
  | expression =>
    refine ⟨rfl, ?_⟩
    obtain ⟨rule, member, found⟩ := List.exists_of_findSome?_eq_some scans
    rw [mode] at member
    simp only [Mode.rules, List.mem_cons, List.not_mem_nil, or_false] at member
    rcases member with rfl | rfl | rfl | rfl | rfl | rfl | rfl | rfl | rfl | rfl
    · exact (not (.inl (Rule.kind_of_number found))).elim
    · exact (not (.inl (Rule.kind_of_string found))).elim
    · exact (not (.inl (Rule.kind_of_color found))).elim
    · exact (not (.inr (.inl (Rule.kind_of_identifier found)))).elim
    · exact .inl found
    · unfold Rule.pair at found
      split at found
      · split at found <;> cases found
        cases ignorable
      · cases found
    · rw [Rule.single] at found
      split at found <;> cases found
      cases ignorable
    · rw [Rule.templateMarker] at found
      split at found <;> cases found
      cases ignorable
    · exact .inr found
    · rw [Rule.sentinel] at found
      split at found <;> cases found
      cases ignorable

/-- Comments and white space change the place only. -/
theorem after_of_ignorable (scans : st.scan c cs = some lexeme)
    (ignorable : lexeme.kind.isIgnorable = true) (width : Nat) :
    st.after lexeme width = { st with position := st.position + width } := by
  have unmarked : lexeme.mode = none := by
    rcases (ignored_of_scan scans ignorable).2 with found | found
    · unfold Rule.comment at found
      split at found <;> cases found <;> rfl
    · rw [Rule.blank] at found
      split at found <;> cases found
      rfl
  simp [State.after, ignorable, unmarked]

theorem blanks_of_blank (found : Rule.blank afterOperand c (text ++ cs) = some lexeme)
    (length : text.length = lexeme.extra) : Text.Blanks (c :: text) := by
  rw [Rule.blank] at found
  split at found
  · next blank =>
    cases found
    have length : text.length = ((text ++ cs).takeWhile Text.isBlank).length := length
    have run : (text ++ cs).takeWhile Text.isBlank = text := by
      rw [List.prefix_iff_eq_take.mp (List.takeWhile_prefix Text.isBlank), ← length, List.take_left]
    intro d member
    rcases List.mem_cons.mp member with rfl | later
    · exact blank
    · rw [← run] at later
      exact List.mem_takeWhile_imp later
  · cases found

/-- Wherever the text starts, it has these tokens that mean something, but for their places. -/
def Rereads (st : State) (cs : List Char) (ts : List Token) : Prop :=
  ∀ position, ∃ us, tokens { st with position } cs = .ok us ∧ List.Forall₂ Token.Same ts us

namespace Rereads

variable {ts : List Token} {width : Nat}

theorem nil (st : State) : Rereads st [] [] := fun _ => ⟨[], tokens_nil _, .nil⟩

theorem gap {gap : List Char} (isGap : Gap st.mode gap) (rereads : Rereads st cs ts) :
    Rereads st (gap ++ cs) ts := by
  intro position
  obtain ⟨mode, afterOperand, _⟩ := st
  cases mode with
  | expression =>
    rw [tokens_blanks position isGap.1]
    exact rereads _
  | template =>
    rw [isGap.2 rfl]
    exact rereads position

/-- A token that means something is read in front of others. -/
theorem token (scans : st.scan c (text ++ cs) = some lexeme) (length : text.length = lexeme.extra)
    (inRange : lexeme.outOfRange = false) (means : lexeme.kind.isIgnorable = false)
    (behind : Rereads (st.after lexeme width) cs ts) :
    Rereads st (c :: (text ++ cs)) (st.token lexeme (c :: text) :: ts) := by
  intro position
  have again : State.scan { st with position } c (text ++ cs) = some lexeme := scans
  obtain ⟨us, others, same⟩ := behind (position + Text.width (c :: text))
  refine ⟨State.token { st with position } lexeme (c :: text) :: us, ?_, .cons ⟨rfl, rfl, rfl⟩ same⟩
  exact (Reads.token again length.symm inRange means).trans (congrArg (Except.map _) others)

/-- A comment or white space is read past. -/
theorem past (scans : st.scan c (text ++ cs) = some lexeme) (length : text.length = lexeme.extra)
    (inRange : lexeme.outOfRange = false) (ignorable : lexeme.kind.isIgnorable = true)
    (behind : Rereads st cs ts) : Rereads st (c :: (text ++ cs)) ts := by
  intro position
  have again : State.scan { st with position } c (text ++ cs) = some lexeme := scans
  have reads := Reads.of_scan again length.symm inRange
  have nothing : Token.significant [State.token { st with position } lexeme (c :: text)] = [] := by
    simp [Token.significant, State.token, ignorable]
  rw [nothing, after_of_ignorable again ignorable] at reads
  rw [← List.cons_append, reads.past]
  exact behind _

/-- A comment up to the end of a text is read past with any white space behind it. -/
theorem comment (expression : st.mode = .expression)
    (found : Rule.comment st.afterOperand c text = some lexeme)
    (length : text.length = lexeme.extra) {blanks : List Char} (isBlank : Text.Blanks blanks) :
    Rereads st (c :: (text ++ blanks)) [] := by
  intro position
  obtain ⟨n, longer, again⟩ := Rule.exists_comment_append found blanks
  have scans : State.scan { st with position } c (text ++ blanks) =
      some { kind := .comment, extra := n } := scan_of_comment expression again
  have isGap : Gap st.mode ((text ++ blanks).drop n) := by
    refine ⟨fun d member => ?_, by simp [expression]⟩
    rw [List.drop_append, List.drop_of_length_le (by omega), List.nil_append] at member
    exact isBlank d (List.mem_of_mem_drop member)
  obtain ⟨us, others, same⟩ :=
    (nil st).gap isGap (position + Text.width (c :: (text ++ blanks).take n))
  rw [List.append_nil] at others
  cases same
  refine ⟨[], ?_, .nil⟩
  rw [tokens_of_scan scans rfl]
  exact congrArg (Except.map _) others

end Rereads

/-- In another layout a text has the same tokens that mean something, at other places. -/
theorem Trace.rereads {laid : List Char} {rest : List Char} (trace : Trace st cs rs st' rest)
    (whole : rest = []) (relaid : Relaid st'.mode rs laid) :
    Rereads st laid ((meaningful rs).map Reading.token) := by
  induction trace generalizing laid with
  | nil st rest =>
    cases relaid with
    | ends isGap => simpa [meaningful] using (Rereads.nil st).gap isGap
  | @cons st st' c text cs rest lexeme rs scans length inRange behind inductionHypothesis =>
    subst whole
    have spelled : (st.token lexeme (c :: text)).text.toList = c :: text := String.toList_ofList
    cases ignorable : lexeme.kind.isIgnorable with
    | false =>
      rw [meaningful_kept (r := ⟨st, st.token lexeme (c :: text)⟩) ignorable]
      cases relaid with
      | replaced _ ignorable' =>
        rw [State.token, ignorable] at ignorable'
        cases ignorable'
      | stays isGap relaid =>
        rw [spelled, List.cons_append]
        have scans' := scan_relaid scans length ignorable behind relaid
        exact .gap isGap (.token scans' length inRange ignorable (inductionHypothesis rfl relaid))
    | true =>
      rw [meaningful_dropped (r := ⟨st, st.token lexeme (c :: text)⟩) ignorable]
      obtain ⟨expression, found⟩ := ignored_of_scan scans ignorable
      rw [after_of_ignorable scans ignorable] at behind inductionHypothesis
      have rereads {laid : List Char} (relaid : Relaid st'.mode rs laid) :
          Rereads st laid ((meaningful rs).map Reading.token) := inductionHypothesis rfl relaid
      have white {blanks : List Char} (isBlank : Text.Blanks blanks) : Gap st.mode blanks :=
        ⟨isBlank, by simp [expression]⟩
      cases relaid with
      | replaced isGap _ isBlank _ relaid =>
        exact .gap isGap (.gap (white isBlank) (rereads relaid))
      | @stays _ _ _ cs' isGap relaid =>
        rw [spelled]
        rcases found with found | found
        · refine .gap isGap ?_
          by_cases last : cs = []
          · -- The comment may have no end, and white space behind it is then a part of it.
            subst last
            cases behind with
            | nil =>
              cases relaid with
              | ends isGap' =>
                rw [List.append_nil] at found
                exact .comment expression found length isGap'.1
          · have closed := Rule.comment_closed found length last cs'
            have scans' := scan_of_comment expression closed
            exact .past scans' length inRange ignorable (rereads relaid)
        · exact .gap isGap (.gap (white (blanks_of_blank found length)) (rereads relaid))

end Lexer

/-- Layout means nothing. Where the lexer reads a text, it reads any other layout of it, as the
same tokens that mean something, at other places. Every dialect makes the same tree of them or
reports the same error, but for places. -/
theorem layout_insensitive {mode : Mode} {text : List Char} {rs : List Reading}
    (read : readings true { mode } 0 text = .ok rs) :
    ∃ st us, Trace { mode } text rs st [] ∧ Token.read mode text = .ok us ∧
      ∀ laid, Relaid st.mode rs laid → ∃ us', Token.read mode laid = .ok us' ∧
        List.Forall₂ Token.Same us us' ∧ ∀ d,
          Parser.unplaced (Tree.parse d us') = Parser.unplaced (Tree.parse d us) ∧
          Parser.unplaced (Tree.parseTemplate d us') = Parser.unplaced (Tree.parseTemplate d us) := by
  obtain ⟨st, trace⟩ := readings_eq_ok_iff.mp read
  refine ⟨st, (meaningful rs).map Reading.token, trace, ?_, fun laid relaid => ?_⟩
  · rw [Token.read, readings_false, read]
    rfl
  · obtain ⟨us', read', same⟩ := trace.rereads rfl relaid 0
    have again (d : Dialect) := Tree.parse_same d same
    exact ⟨us', by rwa [read_eq_tokens], same, fun d => ⟨(again d).1.symm, (again d).2.symm⟩⟩

/-- A difference without its comment, and with white space of other kinds. -/
theorem layout_insensitive_of_difference :
    ∃ us us' t, Token.read .expression "a/**/-b".toList = .ok us ∧
      Token.read .expression "\ta\n- b".toList = .ok us' ∧ Tree.parse (.plain {}) us = .ok t ∧
      Parser.unplaced (Tree.parse (.plain {}) us') = .ok t.unplaced := by
  have readings : readings true { mode := .expression } 0 "a/**/-b".toList =
      .ok [⟨⟨.expression, false, 0⟩, ⟨.identifier, ⟨0, 1⟩, "a", none⟩⟩,
        ⟨⟨.expression, true, 1⟩, ⟨.comment, ⟨1, 5⟩, "/**/", none⟩⟩,
        ⟨⟨.expression, true, 5⟩, ⟨.operator, ⟨5, 6⟩, "-", none⟩⟩,
        ⟨⟨.expression, false, 6⟩, ⟨.identifier, ⟨6, 7⟩, "b", none⟩⟩] := by rfl
  have parsed : Tree.parse (.plain {}) [⟨.identifier, ⟨0, 1⟩, "a", none⟩,
        ⟨.operator, ⟨5, 6⟩, "-", none⟩, ⟨.identifier, ⟨6, 7⟩, "b", none⟩] =
      .ok (.binary ⟨⟨0, 7⟩, 2⟩ .subtract (.name ⟨⟨0, 1⟩, 1⟩ "a") (.name ⟨⟨6, 7⟩, 1⟩ "b")) := by rfl
  obtain ⟨st, us, trace, read, again⟩ := layout_insensitive readings
  have white (cs : List Char) (isBlank : cs.all Text.isBlank = true) : Text.Blanks cs :=
    List.all_eq_true.mp isBlank
  have gap (cs : List Char) (isBlank : cs.all Text.isBlank = true) : Gap .expression cs :=
    ⟨white cs isBlank, fun template => by cases template⟩
  have last : Relaid st.mode [] [] := .ends ⟨white [] rfl, fun _ => rfl⟩
  have spelled : "\ta\n- b".toList = ['\t'] ++ ("a".toList ++ ([] ++ (['\n'] ++ ([] ++
      ("-".toList ++ ([' '] ++ ("b".toList ++ []))))))) := by rfl
  obtain ⟨us', read', _, alike⟩ := again "\ta\n- b".toList <| spelled ▸
    .stays (gap ['\t'] rfl) (.replaced (gap [] rfl) rfl (white ['\n'] rfl) (List.cons_ne_nil _ _)
      (.stays (gap [] rfl) (.stays (gap [' '] rfl) last)))
  rw [Token.read, readings_false, readings] at read
  cases read
  refine ⟨_, us', _, ?_, read', parsed, ?_⟩
  · rw [Token.read, readings_false, readings]
    rfl
  · rw [(alike _).1]
    exact congrArg Parser.unplaced parsed

end Formulae
