import Formulae.Proofs.Spelling.FreeText

/-!
What a rule matches does not depend on the text behind the match.

A text that goes on behind a lexeme can be cut off there, and behind what no rule matches:
the rules decide in the same way on the front alone.
-/

namespace Formulae

namespace Text.Free

theorem decode_escape {c : Char} (mark : isMark c = true) (cs : List Char) :
    decode ('\\' :: c :: cs) = ((decode cs).1 + 2, c :: (decode cs).2) := by
  rw [decode, if_pos mark]

theorem decode_backslash {c : Char} (plain : isMark c = false) (cs : List Char) :
    decode ('\\' :: c :: cs) = ((decode (c :: cs)).1 + 1, '\\' :: (decode (c :: cs)).2) := by
  rw [decode, if_neg (by simp [plain])]

theorem decode_le (cs : List Char) : (decode cs).1 ≤ cs.length := by
  induction cs using decode.induct with
  | case1 => exact Nat.le_refl _
  | case2 c cs mark n text decoded inductionHypothesis =>
    rw [decode_escape mark]
    exact Nat.add_le_add_right inductionHypothesis 2
  | case3 c cs plain n text decoded inductionHypothesis =>
    rw [decode_backslash (by simpa using plain)]
    exact Nat.succ_le_succ inductionHypothesis
  | case4 c cs last stops =>
    rw [decode, if_pos stops]
    · exact Nat.zero_le _
    · exact last
  | case5 c cs last other n text decoded inductionHypothesis =>
    rw [decode, if_neg other]
    · exact Nat.succ_le_succ inductionHypothesis
    · exact last

/-- Free text has no characters only where it stops. -/
theorem stops_of_decode {cs : List Char} (none : (decode cs).1 = 0) : Stops cs := by
  have stops := stops_drop cs
  rwa [none] at stops

theorem decode_append {front rest : List Char}
    (fits : (decode (front ++ rest)).1 ≤ front.length) :
    decode front = decode (front ++ rest) := by
  induction front using decode.induct with
  | case1 => exact (stops_of_decode (Nat.le_zero.mp fits)).symm
  | case2 c cs mark n text decoded inductionHypothesis =>
    rw [List.cons_append, List.cons_append, decode_escape mark] at fits ⊢
    rw [decode_escape mark, inductionHypothesis (Nat.le_of_add_le_add_right fits)]
  | case3 c cs plain n text decoded inductionHypothesis =>
    have plain : isMark c = false := by simpa using plain
    rw [List.cons_append, List.cons_append, decode_backslash plain] at fits ⊢
    rw [decode_backslash plain, inductionHypothesis (Nat.le_of_succ_le_succ fits)]
    rfl
  | case4 c cs last stops =>
    exact (stops_of_mark stops cs).trans (stops_of_mark stops (cs ++ rest)).symm
  | case5 c cs last other n text decoded inductionHypothesis =>
    by_cases backslash : c = '\\'
    · subst backslash
      cases cs with
      | cons d ds => exact absurd rfl (last d ds rfl)
      | nil =>
        cases rest with
        | nil => rfl
        | cons d ds =>
          -- A backslash at the end of the front would take the next character with it.
          rw [List.singleton_append] at fits
          cases mark : isMark d with
          | true =>
            rw [decode_escape mark] at fits
            exact absurd fits (by simp)
          | false =>
            rw [decode_backslash mark, decode_cons mark] at fits
            exact absurd fits (by simp)
    · have plain : isMark c = false := by simpa [isMark, backslash] using other
      rw [List.cons_append, decode_cons plain] at fits ⊢
      rw [decode_cons plain, inductionHypothesis (Nat.le_of_succ_le_succ fits)]

end Text.Free

namespace Rule

/-- A match lies within the text, stays when the text behind it is cut off, and does not come
about by cutting. -/
structure Local (rule : Rule) : Prop where
  within {afterOperand : Bool} {c : Char} {cs : List Char} {lexeme : Lexeme}
    (found : rule afterOperand c cs = some lexeme) : lexeme.extra ≤ cs.length
  keeps {afterOperand : Bool} {c : Char} {front rest : List Char} {lexeme : Lexeme}
    (found : rule afterOperand c (front ++ rest) = some lexeme)
    (fits : lexeme.extra ≤ front.length) : rule afterOperand c front = some lexeme
  fails {afterOperand : Bool} {c : Char} {front rest : List Char}
    (missed : rule afterOperand c (front ++ rest) = none) : rule afterOperand c front = none

section Runs

variable {p : Char → Bool} {front rest : List Char}

/-- A run of characters that ends within the front ends there without the rest too. -/
theorem takeWhile_eq_of_length_le
    (fits : ((front ++ rest).takeWhile p).length ≤ front.length) :
    (front ++ rest).takeWhile p = front.takeWhile p := by
  rw [List.takeWhile_append] at fits ⊢
  split
  · next whole =>
    rw [if_pos whole, List.length_append] at fits
    have none : rest.takeWhile p = [] := List.eq_nil_of_length_eq_zero (by omega)
    rw [none, List.append_nil, (List.takeWhile_prefix p).eq_of_length whole]
  · rfl

theorem dropWhile_eq_of_length_le
    (fits : ((front ++ rest).takeWhile p).length ≤ front.length) :
    (front ++ rest).dropWhile p = front.dropWhile p ++ rest := by
  have whole := List.takeWhile_append_dropWhile (p := p) (l := front ++ rest)
  rw [takeWhile_eq_of_length_le fits] at whole
  have both : front.takeWhile p ++ (front ++ rest).dropWhile p =
      front.takeWhile p ++ (front.dropWhile p ++ rest) := by
    rw [whole, ← List.append_assoc, List.takeWhile_append_dropWhile]
  exact List.append_cancel_left both

/-- A run of at most `n` characters that ends within the front is there without the rest too. -/
theorem take_takeWhile_eq_of_length_le {n : Nat}
    (fits : (((front ++ rest).takeWhile p).take n).length ≤ front.length) :
    ((front ++ rest).takeWhile p).take n = (front.takeWhile p).take n := by
  rw [List.takeWhile_append] at fits ⊢
  split
  · next whole =>
    rw [if_pos whole, List.length_take, List.length_append] at fits
    have none : (rest.takeWhile p).take (n - front.length) = [] := by
      apply List.eq_nil_of_length_eq_zero
      rw [List.length_take]
      omega
    rw [List.take_append, none, List.append_nil, (List.takeWhile_prefix p).eq_of_length whole]
  · rfl

/-- The run of the front is the start of the run of the whole. -/
theorem takeWhile_prefix_append (p : Char → Bool) (front rest : List Char) :
    front.takeWhile p <+: (front ++ rest).takeWhile p := by
  rw [List.takeWhile_append]
  split
  · next whole =>
    rw [(List.takeWhile_prefix p).eq_of_length whole]
    exact List.prefix_append _ _
  · exact List.prefix_rfl

end Runs

section Numbers

theorem splitSign_append (c : Char) (front rest : List Char) :
    splitSign (c :: (front ++ rest)) =
      ((splitSign (c :: front)).1, (splitSign (c :: front)).2 ++ rest) := by
  by_cases plus : c = '+'
  · subst plus
    rfl
  by_cases minus : c = '-'
  · subst minus
    rfl
  rw [splitSign_cons plus minus, splitSign_cons plus minus]
  rfl

theorem fractionOf_prefix (front rest : List Char) :
    fractionOf front <+: fractionOf (front ++ rest) := by
  cases front with
  | nil => exact List.nil_prefix
  | cons c cs =>
    by_cases point : c = '.'
    · subst point
      exact takeWhile_prefix_append _ _ _
    · rw [fractionOf_cons point]
      exact List.nil_prefix

/-- Digits and a fraction that end within the front are there without the rest too. -/
theorem digits_append (body rest : List Char)
    (fits : ((body ++ rest).takeWhile Char.isDigit).length ≤ body.length ∧
        fractionOf ((body ++ rest).dropWhile Char.isDigit) = [] ∨
      ((body ++ rest).takeWhile Char.isDigit).length +
        (fractionOf ((body ++ rest).dropWhile Char.isDigit)).length < body.length) :
    (body ++ rest).takeWhile Char.isDigit = body.takeWhile Char.isDigit ∧
      fractionOf ((body ++ rest).dropWhile Char.isDigit) =
        fractionOf (body.dropWhile Char.isDigit) := by
  have whole : ((body ++ rest).takeWhile Char.isDigit).length ≤ body.length := by omega
  have split := congrArg List.length
    (List.takeWhile_append_dropWhile (p := Char.isDigit) (l := body))
  rw [List.length_append] at split
  rw [takeWhile_eq_of_length_le whole, dropWhile_eq_of_length_le whole] at fits ⊢
  refine ⟨rfl, ?_⟩
  generalize body.dropWhile Char.isDigit = behind at fits split ⊢
  rcases fits with ⟨_, integral⟩ | within
  · have front := fractionOf_prefix behind rest
    rw [integral] at front ⊢
    exact (List.prefix_nil.mp front).symm
  cases behind with
  | nil =>
    rw [List.length_nil] at split
    omega
  | cons c cs =>
    rw [List.length_cons] at split
    by_cases point : c = '.'
    · subst point
      refine takeWhile_eq_of_length_le ?_
      have same : fractionOf ('.' :: cs ++ rest) = (cs ++ rest).takeWhile Char.isDigit := rfl
      rw [same] at within
      omega
    · rw [List.cons_append, fractionOf_cons point, fractionOf_cons point]

theorem local_number : Local number where
  within found := by
    obtain ⟨_, _, length, _⟩ := Numeral.exists_of_number found
    rw [← length]
    exact List.length_take_le' _ _
  keeps := by
    intro afterOperand c front rest lexeme found fits
    obtain ⟨sign, body, splits, text, _⟩ := Numeral.exists_sign (c :: front)
    have length : front.length + 1 = sign.length + body.length := by
      rw [← List.length_append, ← text, List.length_cons]
    rw [number, splitSign_append, splits] at found
    rw [number, splits]
    dsimp only at found ⊢
    obtain ⟨whole, fraction⟩ := digits_append body rest <| by
      split at found
      · cases found
      split at found
      · cases found
        simp only [Lexeme.literal] at fits
        exact .inr (by omega)
      split at found
      · next integral _ =>
        cases found
        simp only [Lexeme.literal] at fits
        exact .inl ⟨by omega, not_not.mp integral⟩
      · cases found
    rwa [← whole, ← fraction]
  fails := by
    intro afterOperand c front rest missed
    obtain ⟨sign, body, splits, text, _⟩ := Numeral.exists_sign (c :: front)
    rw [number, splitSign_append, splits] at missed
    rw [number, splits]
    dsimp only at missed ⊢
    split at missed
    · next signed => rw [if_pos signed]
    split at missed
    · cases missed
    next integral =>
    split at missed
    · cases missed
    next digits =>
    rw [ne_eq, not_not] at integral digits
    obtain ⟨whole, fraction⟩ := digits_append body rest
      (.inl ⟨by simp [digits], integral⟩)
    rw [← whole, ← fraction, integral, digits]
    simp

end Numbers

theorem local_string : Local string where
  within {_ c cs lexeme} found := by
    rw [string] at found
    split at found
    · obtain ⟨body, reads, rfl⟩ := Option.map_eq_some_iff.mp found
      obtain ⟨⟨behind, rfl⟩, _⟩ := exists_of_body reads
      simp [Lexeme.literal]
    · cases found
  keeps {_ c front rest lexeme} found fits := by
    rw [string] at found ⊢
    split at found
    · next quote =>
      obtain ⟨body, reads, rfl⟩ := Option.map_eq_some_iff.mp found
      obtain ⟨⟨behind, text⟩, again⟩ := exists_of_body reads
      obtain ⟨more, rfl⟩ : body ++ ['"'] <+: front := by
        refine List.prefix_of_prefix_length_le ⟨behind, ?_⟩ ⟨rest, rfl⟩ ?_
        · rw [text, List.append_assoc]
          rfl
        · simpa [Lexeme.literal] using fits
      rw [if_pos quote, List.append_assoc, List.singleton_append, again]
      rfl
    · cases found
  fails {_ c front rest} missed := by
    rw [string] at missed ⊢
    split at missed
    · next quote =>
      rw [Option.map_eq_none_iff] at missed
      cases reads : Text.Quoted.body? front with
      | none => simp
      | some body =>
        obtain ⟨⟨behind, rfl⟩, again⟩ := exists_of_body reads
        rw [List.append_assoc, List.cons_append, again] at missed
        cases missed
    · next other => rw [if_neg other]

theorem local_color : Local color where
  within {_ c cs lexeme} found := by
    rw [color] at found
    split at found
    · cases found
      exact Nat.le_trans (List.length_take_le' _ _) (List.takeWhile_prefix _).length_le
    · cases found
  keeps {_ c front rest lexeme} found fits := by
    rw [color] at found ⊢
    split at found
    · next form =>
      cases found
      rw [take_takeWhile_eq_of_length_le fits] at form ⊢
      exact if_pos form
    · cases found
  fails {_ c front rest} missed := by
    rw [color] at missed ⊢
    split at missed
    · cases missed
    · next other =>
      refine if_neg fun form => other ⟨form.1, Nat.le_trans form.2 ?_⟩
      have run := (takeWhile_prefix_append isHexDigit front rest).length_le
      rw [List.length_take, List.length_take]
      omega

/-- A rule for a run of characters behind the first. -/
theorem local_run (opens p : Char → Bool) (lexeme : Lexeme) :
    Local fun _ c cs =>
      if opens c then some { lexeme with extra := (cs.takeWhile p).length } else none where
  within {_ c cs _} found := by
    split at found
    · cases found
      exact (List.takeWhile_prefix _).length_le
    · cases found
  keeps {_ c front rest _} found fits := by
    split at found
    · next first =>
      cases found
      rw [if_pos first, takeWhile_eq_of_length_le fits]
    · cases found
  fails {_ c front rest} missed := by
    split at missed
    · cases missed
    · next other => exact if_neg other

theorem local_identifier : Local identifier :=
  local_run isNameStart isNameChar { kind := .identifier, extra := 0, endsOperand := true }

theorem local_blank : Local blank :=
  local_run Text.isBlank Text.isBlank { kind := .blank, extra := 0 }

/-- A rule for a single character. -/
theorem local_of_char {rule : Rule}
    (blind : ∀ afterOperand c cs, rule afterOperand c cs = rule afterOperand c [])
    (single : ∀ afterOperand c lexeme, rule afterOperand c [] = some lexeme → lexeme.extra = 0) :
    Local rule where
  within {_ _ _ _} found := by
    rw [blind] at found
    rw [single _ _ _ found]
    exact Nat.zero_le _
  keeps {_ _ _ _ _} found _ := by rwa [blind] at found ⊢
  fails {_ _ _ _} missed := by rwa [blind] at missed ⊢

theorem local_single : Local single :=
  local_of_char (fun _ _ _ => rfl) fun _ _ _ found => by
    rw [single] at found
    split at found <;> cases found
    rfl

theorem local_templateMarker : Local templateMarker :=
  local_of_char (fun _ _ _ => rfl) fun _ _ _ found => by
    rw [templateMarker] at found
    split at found <;> cases found
    rfl

theorem local_sentinel : Local sentinel :=
  local_of_char (fun _ _ _ => rfl) fun _ _ _ found => by
    rw [sentinel] at found
    split at found <;> cases found
    rfl

theorem local_expressionMarker : Local expressionMarker :=
  local_of_char (fun _ _ _ => rfl) fun _ _ _ found => by
    rw [expressionMarker] at found
    split at found
    · cases found
      rfl
    split at found <;> cases found
    rfl

theorem local_pair : Local pair where
  within {_ c cs lexeme} found := by
    unfold pair at found
    split at found
    · split at found
      · cases found
        simp
      · cases found
    · cases found
  keeps {_ c front rest lexeme} found fits := by
    cases front with
    | cons d ds => exact found
    | nil =>
      unfold pair at found
      split at found
      · split at found
        · cases found
          cases fits
        · cases found
      · cases found
  fails {_ c front rest} missed := by
    cases front with
    | cons d ds => exact missed
    | nil => rfl

section Comments

theorem lineLength_le (cs : List Char) : lineLength cs ≤ cs.length := by
  induction cs with
  | nil => exact Nat.le_refl _
  | cons c cs inductionHypothesis =>
    rw [lineLength, List.length_cons]
    split <;> omega

theorem lineLength_append (front rest : List Char)
    (fits : lineLength (front ++ rest) ≤ front.length) :
    lineLength front = lineLength (front ++ rest) := by
  induction front with
  | nil => exact (Nat.le_zero.mp fits).symm
  | cons c cs inductionHypothesis =>
    rw [List.cons_append, lineLength, List.length_cons] at fits
    rw [List.cons_append, lineLength, lineLength]
    split
    · rfl
    · next other =>
      rw [if_neg other] at fits
      rw [inductionHypothesis (by omega)]

theorem blockLength_cons {c : Char} {cs : List Char} (stays : ∀ ds, c = '*' → cs ≠ '/' :: ds) :
    blockLength (c :: cs) = 1 + blockLength cs := by
  rw [blockLength]
  exact stays

theorem blockLength_le (cs : List Char) : blockLength cs ≤ cs.length := by
  induction cs using blockLength.induct with
  | case1 => exact Nat.le_refl _
  | case2 cs => simp [blockLength]
  | case3 c cs stays inductionHypothesis =>
    rw [blockLength_cons stays, List.length_cons]
    omega

theorem blockLength_append (front rest : List Char)
    (fits : blockLength (front ++ rest) ≤ front.length) :
    blockLength front = blockLength (front ++ rest) := by
  induction front using blockLength.induct with
  | case1 => exact (Nat.le_zero.mp fits).symm
  | case2 cs => rfl
  | case3 c cs stays inductionHypothesis =>
    have staysBefore : ∀ ds, c = '*' → cs ++ rest ≠ '/' :: ds := by
      rintro ds rfl text
      cases cs with
      | nil =>
        rw [List.nil_append] at text
        rw [text] at fits
        exact absurd fits (by simp [blockLength])
      | cons d ds' =>
        cases text
        exact stays ds' rfl rfl
    rw [List.cons_append, blockLength_cons staysBefore, List.length_cons] at fits
    rw [List.cons_append, blockLength_cons staysBefore, blockLength_cons stays,
      inductionHypothesis (by omega)]

theorem comment_cons (afterOperand : Bool) (c d : Char) (cs : List Char) :
    comment afterOperand c (d :: cs) =
      if c = '/' ∧ d = '/' then some { kind := .comment, extra := 1 + lineLength cs }
      else if c = '/' ∧ d = '*' then some { kind := .comment, extra := 1 + blockLength cs }
      else none := by
  unfold comment
  split
  · next same =>
    cases same
    rfl
  · next same =>
    cases same
    rfl
  · next noLine noBlock =>
    rw [if_neg, if_neg]
    · rintro ⟨rfl, rfl⟩
      exact noBlock cs rfl rfl
    · rintro ⟨rfl, rfl⟩
      exact noLine cs rfl rfl

theorem comment_nil (afterOperand : Bool) (c : Char) : comment afterOperand c [] = none := by
  unfold comment
  split
  · next same => cases same
  · next same => cases same
  · rfl

theorem local_comment : Local comment where
  within {_ c cs lexeme} found := by
    cases cs with
    | nil =>
      rw [comment_nil] at found
      cases found
    | cons d ds =>
      rw [comment_cons] at found
      have line := lineLength_le ds
      have block := blockLength_le ds
      rw [List.length_cons]
      split at found
      · cases found
        dsimp only
        omega
      split at found
      · cases found
        dsimp only
        omega
      · cases found
  keeps {afterOperand c front rest lexeme} found fits := by
    cases front with
    | nil =>
      cases rest with
      | nil => exact found
      | cons d ds =>
        rw [List.nil_append, comment_cons] at found
        split at found
        · cases found
          simp at fits
        split at found
        · cases found
          simp at fits
        · cases found
    | cons d ds =>
      rw [List.cons_append, comment_cons] at found
      rw [comment_cons]
      rw [List.length_cons] at fits
      split at found
      · next slashes =>
        cases found
        dsimp only at fits
        rw [if_pos slashes, lineLength_append ds rest (by omega)]
      next noLine =>
      split at found
      · next opening =>
        cases found
        dsimp only at fits
        rw [if_neg noLine, if_pos opening, blockLength_append ds rest (by omega)]
      · cases found
  fails {_ c front rest} missed := by
    cases front with
    | nil => exact comment_nil _ c
    | cons d ds =>
      rw [List.cons_append, comment_cons] at missed
      rw [comment_cons]
      split at missed
      · cases missed
      next noLine =>
      split at missed
      · cases missed
      next noBlock => rw [if_neg noLine, if_neg noBlock]

end Comments

theorem local_template : Local template where
  within {_ c cs lexeme} found := by
    rw [template] at found
    split at found
    · cases found
    · next extra text decoded =>
      cases found
      have within := Text.Free.decode_le (c :: cs)
      rw [decoded] at within
      exact Nat.le_of_succ_le_succ within
  keeps {_ c front rest lexeme} found fits := by
    rw [template] at found
    split at found
    · cases found
    · next extra text decoded =>
      cases found
      have same : Text.Free.decode (c :: front) = Text.Free.decode (c :: front ++ rest) := by
        apply Text.Free.decode_append
        rw [List.cons_append, decoded]
        exact Nat.succ_le_succ fits
      rw [template, same, List.cons_append, decoded]
  fails {_ c front rest} missed := by
    rw [template] at missed
    split at missed
    · next decoded =>
      have same : Text.Free.decode (c :: front) = Text.Free.decode (c :: front ++ rest) := by
        apply Text.Free.decode_append
        rw [List.cons_append, decoded]
        exact Nat.zero_le _
      rw [template, same, List.cons_append, decoded]
    · cases missed

end Rule

theorem Mode.local_of_mem_rules {mode : Mode} {rule : Rule} (member : rule ∈ mode.rules) :
    rule.Local := by
  cases mode with
  | expression =>
    simp only [rules, List.mem_cons, List.not_mem_nil, or_false] at member
    rcases member with rfl | rfl | rfl | rfl | rfl | rfl | rfl | rfl | rfl | rfl
    · exact Rule.local_number
    · exact Rule.local_string
    · exact Rule.local_color
    · exact Rule.local_identifier
    · exact Rule.local_comment
    · exact Rule.local_pair
    · exact Rule.local_single
    · exact Rule.local_templateMarker
    · exact Rule.local_blank
    · exact Rule.local_sentinel
  | template =>
    simp only [rules, List.mem_cons, List.not_mem_nil, or_false] at member
    rcases member with rfl | rfl
    · exact Rule.local_expressionMarker
    · exact Rule.local_template

namespace Lexer.State

variable {st : State} {c : Char} {lexeme : Lexeme}

/-- A lexeme lies within the text. -/
theorem length_of_scan {cs : List Char} (scans : st.scan c cs = some lexeme) :
    (cs.take lexeme.extra).length = lexeme.extra := by
  obtain ⟨rule, member, found⟩ := List.exists_of_findSome?_eq_some scans
  exact List.length_take_of_le ((Mode.local_of_mem_rules member).within found)

/-- A lexeme is the same without the text behind it. -/
theorem scan_front {front rest : List Char} (scans : st.scan c (front ++ rest) = some lexeme)
    (fits : lexeme.extra ≤ front.length) : st.scan c front = some lexeme := by
  rw [scan, List.findSome?_eq_some_iff] at scans ⊢
  obtain ⟨tried, rule, others, rules, found, missed⟩ := scans
  have isLocal {r : Rule} (member : r ∈ tried ++ rule :: others) : r.Local :=
    Mode.local_of_mem_rules (rules ▸ member)
  refine ⟨tried, rule, others, rules, ?_, fun r member => ?_⟩
  · exact (isLocal (by simp)).keeps found fits
  · exact (isLocal (by simp [member])).fails (missed r member)

end Lexer.State

end Formulae
