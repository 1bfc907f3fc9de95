import Mathlib.Data.List.DropRight
import Formulae.Proofs.Token.Layout

/-!
Reading on.

What has been read of a text before its end is read in the same way when the text goes on with
a character that breaks tokens off. At the very end this holds of the body of a template too,
unless the text ends in a backslash that hides the character.
-/

namespace Formulae

open Formulae.Lexer

namespace Text.Free

/-- Whether a backslash at the end of the text hides a mark behind it. -/
def hides (cs : List Char) : Bool := cs.foldl (fun hidden c => c == '\\' && !hidden) false

variable {c : Char} {cs front : List Char}

theorem hides_concat (cs : List Char) (c : Char) :
    hides (cs ++ [c]) = (c == '\\' && !hides cs) := by
  rw [hides, List.foldl_append]
  rfl

/-- A text that hides nothing does not matter to what is behind it. -/
theorem hides_append (bare : hides front = false) (cs : List Char) :
    hides (front ++ cs) = hides cs := by
  rw [hides, List.foldl_append, ← hides, bare, ← hides]

theorem hides_escape (c : Char) (cs : List Char) : hides ('\\' :: c :: cs) = hides cs := by
  have bare : hides ['\\', c] = false := by simp [hides]
  exact hides_append bare cs

theorem hides_cons (other : c ≠ '\\') (cs : List Char) : hides (c :: cs) = hides cs := by
  have bare : hides [c] = false := by simp [hides, other]
  exact hides_append bare cs

/-- It does if the number of backslashes there is odd. -/
theorem hides_iff (cs : List Char) :
    hides cs = true ↔ (cs.rtakeWhile (· == '\\')).length % 2 = 1 := by
  induction cs using List.reverseRecOn with
  | nil => simp [hides]
  | append_singleton cs c inductionHypothesis =>
    rw [hides_concat, List.rtakeWhile_concat]
    by_cases backslash : c = '\\'
    · rw [if_pos (by simpa using backslash), List.length_append, List.length_singleton]
      have flips : (c == '\\' && !hides cs) = true ↔ ¬ hides cs = true := by simp [backslash]
      rw [flips, inductionHypothesis]
      omega
    · rw [if_neg (by simpa using backslash)]
      simp [backslash]

/-- Free text that reaches to the end of a text goes on behind it, if nothing there is hidden. -/
theorem decode_append_of_bare (whole : (decode front).1 = front.length)
    (bare : hides front = false) (rest : List Char) :
    decode (front ++ rest) =
      (front.length + (decode rest).1, (decode front).2 ++ (decode rest).2) := by
  induction front using decode.induct with
  | case1 => simp [decode]
  | case2 c cs mark n text decoded inductionHypothesis =>
    rw [decode_escape mark] at whole ⊢
    rw [hides_escape] at bare
    rw [List.cons_append, List.cons_append, decode_escape mark,
      inductionHypothesis (Nat.add_right_cancel whole) bare]
    simp only [List.length_cons, List.cons_append, Prod.mk.injEq, and_true]
    omega
  | case3 c cs plain n text decoded inductionHypothesis =>
    have plain : isMark c = false := by simpa using plain
    have other : c ≠ '\\' := by
      rintro rfl
      cases plain
    rw [decode_backslash plain] at whole ⊢
    rw [hides_escape, ← hides_cons other] at bare
    rw [List.cons_append, List.cons_append, decode_backslash plain, ← List.cons_append,
      inductionHypothesis (Nat.succ.inj whole) bare]
    simp only [List.length_cons, List.cons_append, Prod.mk.injEq, and_true]
    omega
  | case4 c cs last mark =>
    rw [show decode (c :: cs) = _ from stops_of_mark mark cs] at whole
    cases whole
  | case5 c cs last unmarked n text decoded inductionHypothesis =>
    by_cases backslash : c = '\\'
    · subst backslash
      cases cs with
      | nil => cases bare
      | cons d ds => exact absurd rfl (last d ds rfl)
    · have plain : isMark c = false := by simpa [isMark, backslash] using unmarked
      rw [decode_cons plain] at whole ⊢
      rw [hides_cons backslash] at bare
      rw [List.cons_append, decode_cons plain, inductionHypothesis (Nat.succ.inj whole) bare]
      simp only [List.length_cons, List.cons_append, Prod.mk.injEq, and_true]
      omega

/-- It is the same before a mark that is not hidden. -/
theorem decode_append_of_stops {rest : List Char} (whole : (decode front).1 = front.length)
    (bare : hides front = false) (stops : Stops rest) : decode (front ++ rest) = decode front := by
  rw [decode_append_of_bare whole bare, show decode rest = (0, []) from stops, List.append_nil,
    Nat.add_zero, ← whole]

/-- It takes a mark that is hidden. -/
theorem exists_decode_of_hides (whole : (decode front).1 = front.length)
    (hidden : hides front = true) (mark : isMark c = true) :
    ∃ text, decode (front ++ [c]) = (front.length + 1, text ++ [c]) := by
  obtain rfl | ⟨cs, d, rfl⟩ := List.eq_nil_or_concat' front
  · cases hidden
  rw [hides_concat, Bool.and_eq_true, beq_iff_eq, Bool.not_eq_true'] at hidden
  obtain ⟨rfl, bare⟩ := hidden
  have inside : (decode cs).1 = cs.length := by
    apply Nat.le_antisymm (decode_le cs)
    by_contra settled
    rw [Nat.not_le] at settled
    rw [decode_append_of_lt settled, List.length_append, List.length_singleton] at whole
    omega
  rw [List.append_assoc, decode_append_of_bare inside bare, List.singleton_append,
    decode_escape mark, List.length_append]
  exact ⟨_, rfl⟩

end Text.Free

theorem Rule.breaks_backtick : Breaks '\x60' where
  name := by decide
  point := by decide
  comment := by decide
  pair c := by simp [pairs]

namespace Lexer

variable {st st₁ st' : State} {c b : Char} {text cs middle rest : List Char} {lexeme : Lexeme}
  {rs rs' : List Reading}

/-- A lexeme before the end of a text is the same when the text goes on. -/
theorem scan_extend (scans : st.scan c (text ++ cs) = some lexeme)
    (length : text.length = lexeme.extra) (more : cs ≠ []) (breaks : Rule.Breaks b)
    (bs : List Char) : st.scan c (text ++ (cs ++ b :: bs)) = some lexeme := by
  have shorter : text.length < (text ++ cs).length := by
    rw [List.length_append]
    exact Nat.lt_add_of_pos_right (List.length_pos_of_ne_nil more)
  cases ignorable : lexeme.kind.isIgnorable with
  | true =>
    obtain ⟨expression, found | found⟩ := ignored_of_scan scans ignorable
    · exact scan_of_comment expression (Rule.comment_closed found length more _)
    · rw [Rule.blank] at found
      split at found
      · next blank =>
        cases found
        dsimp only at length
        rw [scan_of_isBlank expression blank, ← List.append_assoc, List.takeWhile_append,
          if_neg (by omega)]
      · cases found
  | false =>
    rw [← List.append_assoc]
    cases mode : st.mode with
    | expression => exact State.scan_break mode scans ignorable breaks
    | template => exact State.scan_settled mode scans (length ▸ shorter) _

namespace Trace

theorem append (first : Trace st cs rs st₁ middle) (second : Trace st₁ middle rs' st' rest) :
    Trace st cs (rs ++ rs') st' rest := by
  induction first with
  | nil => exact second
  | cons scans length inRange _ inductionHypothesis =>
    exact .cons scans length inRange (inductionHypothesis second)

/-- What is read before a rest of the text is read in the same way when the text goes on. -/
theorem extend (trace : Trace st cs rs st' rest) (more : rest ≠ []) (breaks : Rule.Breaks b)
    (bs : List Char) : Trace st (cs ++ b :: bs) rs st' (rest ++ b :: bs) := by
  induction trace with
  | nil st rest => exact .nil st _
  | @cons _ _ _ _ cs _ _ _ scans length inRange behind inductionHypothesis =>
    have filled : cs ≠ [] := by
      intro empty
      rw [behind.text_eq] at empty
      exact more (List.append_eq_nil_iff.mp empty).2
    rw [List.cons_append, List.append_assoc]
    exact .cons (scan_extend scans length filled breaks bs) length inRange
      (inductionHypothesis more)

/-- The last reading of a trace. -/
theorem exists_last {r : Reading} (trace : Trace st cs (rs ++ [r]) st' rest) :
    ∃ st₁ c text lexeme, Trace st cs rs st₁ (c :: (text ++ rest)) ∧
      st₁.scan c (text ++ rest) = some lexeme ∧ text.length = lexeme.extra ∧
      lexeme.outOfRange = false ∧ r = ⟨st₁, st₁.token lexeme (c :: text)⟩ ∧
      st' = st₁.after lexeme (Text.width (c :: text)) := by
  obtain ⟨st₁, middle, first, last⟩ := trace.exists_split
  cases last with
  | cons scans length inRange behind =>
    cases behind
    exact ⟨st₁, _, _, _, first, scans, length, inRange, rfl, rfl⟩

end Trace

/-- A marker of a template leads into an expression. -/
theorem mode_after_of_mark (scans : st.scan c cs = some lexeme) (template : st.mode = .template)
    (mark : c = '\x7b' ∨ c = '\x60') (width : Nat) :
    (st.after lexeme width).mode = .expression := by
  simp only [State.scan, template, Mode.rules] at scans
  rcases mark with rfl | rfl <;> cases scans <;> rfl

/-- What is no marker is free text. -/
theorem scan_of_text (template : st.mode = .template) (isText : ¬ (c = '\x7b' ∨ c = '\x60'))
    (cs : List Char) : st.scan c cs = Rule.template st.afterOperand c cs := by
  rw [not_or] at isText
  have marker : Rule.expressionMarker st.afterOperand c cs = none := by
    rw [Rule.expressionMarker, if_neg isText.1, if_neg isText.2]
  simp only [State.scan, template, Mode.rules, List.findSome?_cons, marker]
  cases Rule.template st.afterOperand c cs <;> rfl

/-- Free text is as long as it decodes, and leaves the lexer in the template. -/
theorem exists_decode_of_scan (scans : st.scan c cs = some lexeme) (template : st.mode = .template)
    (isText : ¬ (c = '\x7b' ∨ c = '\x60')) :
    ∃ decoded, Text.Free.decode (c :: cs) = (lexeme.extra + 1, decoded) ∧
      lexeme = { kind := .literal, extra := lexeme.extra
                 value := some (.string (String.ofList decoded)) } := by
  rw [scan_of_text template isText, Rule.template] at scans
  split at scans
  · cases scans
  · next decodes =>
    cases scans
    exact ⟨_, decodes, rfl⟩

/-- From an expression only a marker leads into a template. -/
theorem marker_of_mode_after (scans : st.scan c cs = some lexeme)
    (expression : st.mode = .expression) {width : Nat}
    (template : (st.after lexeme width).mode = .template) :
    (c = '\x60' ∨ c = '\x7d') ∧ lexeme = .marker .template false := by
  have keeps (unmarked : lexeme.mode = none) : False := by
    rw [State.after, unmarked, expression] at template
    cases template
  cases State.scanned scans expression with
  | number found => exact (keeps (Rule.stable_number found).keeps).elim
  | string found => exact (keeps (Rule.stable_string found).keeps).elim
  | color found => exact (keeps (Rule.stable_color found).keeps).elim
  | name found => exact (keeps (Rule.stable_identifier found).keeps).elim
  | neutral _ _ unmarked => exact (keeps unmarked).elim
  | marker marked same => exact ⟨marked, same⟩

theorem texts_concat (rs : List Reading) (st st' : State) (lexeme : Lexeme) (text : List Char) :
    texts (rs ++ [⟨st', st.token lexeme text⟩]) = texts rs ++ text := by
  rw [texts, List.flatMap_append, ← texts, ← texts, texts_cons]
  simp [texts]

namespace Trace

/-- Where free text starts, no backslash in front reaches into it. -/
theorem bare_of_text (trace : Trace st cs rs st' rest) (template : st'.mode = .template)
    (isText : ¬ Text.Free.Stops rest) : Text.Free.hides (texts rs) = false := by
  obtain rfl | ⟨rs, r, rfl⟩ := List.eq_nil_or_concat' rs
  · rfl
  obtain ⟨st₁, c, text, lexeme, _, scans, length, _, rfl, rfl⟩ := trace.exists_last
  rw [texts_concat]
  cases mode : st₁.mode with
  | expression =>
    obtain ⟨marked, rfl⟩ := marker_of_mode_after scans mode template
    cases List.length_eq_zero_iff.mp length
    rw [Text.Free.hides_concat]
    rcases marked with rfl | rfl <;> rfl
  | template =>
    by_cases mark : c = '\x7b' ∨ c = '\x60'
    · rw [mode_after_of_mark scans mode mark] at template
      cases template
    · -- Free text goes on up to a marker, so it is not free text that comes behind it.
      obtain ⟨_, _, same⟩ := exists_decode_of_scan scans mode mark
      have stops := (scanned_template scans mode).2.2 (congrArg Lexeme.kind same)
      rw [← length, List.drop_left] at stops
      exact absurd stops isText

/-- The last reading of a text that ends in a template: a marker, or free text on which it depends
whether a mark behind the text is hidden. -/
theorem exists_last_of_template {r : Reading} (trace : Trace st cs (rs ++ [r]) st' [])
    (template : st'.mode = .template) :
    ∃ st₁ c text lexeme, Trace st cs rs st₁ (c :: text) ∧ st₁.scan c text = some lexeme ∧
      text.length = lexeme.extra ∧ lexeme.outOfRange = false ∧
      r = ⟨st₁, st₁.token lexeme (c :: text)⟩ ∧
      st' = st₁.after lexeme (Text.width (c :: text)) ∧
      (st₁.mode = .expression ∧ lexeme.kind.isIgnorable = false ∧ Text.Free.hides cs = false ∨
        st₁.mode = .template ∧ ¬ (c = '\x7b' ∨ c = '\x60') ∧
          Text.Free.hides cs = Text.Free.hides (c :: text)) := by
  obtain ⟨st₁, c, text, lexeme, first, scans, length, inRange, rfl, rfl⟩ := trace.exists_last
  rw [List.append_nil] at first scans
  refine ⟨st₁, c, text, lexeme, first, scans, length, inRange, rfl, rfl, ?_⟩
  cases mode : st₁.mode with
  | expression =>
    obtain ⟨marked, rfl⟩ := marker_of_mode_after scans mode template
    cases List.length_eq_zero_iff.mp length
    refine .inl ⟨rfl, rfl, ?_⟩
    rw [first.text_eq, Text.Free.hides_concat]
    rcases marked with rfl | rfl <;> rfl
  | template =>
    have isText : ¬ (c = '\x7b' ∨ c = '\x60') := by
      intro mark
      rw [mode_after_of_mark scans mode mark] at template
      cases template
    refine .inr ⟨rfl, isText, ?_⟩
    have starts : ¬ Text.Free.Stops (c :: text) := fun stops => isText stops.first.symm
    rw [first.text_eq, Text.Free.hides_append (first.bare_of_text mode starts)]

/-- A text that ends in a template is read in the same way before a backtick that it does not
hide. -/
theorem close (trace : Trace st cs rs st' []) (template : st'.mode = .template)
    (bare : Text.Free.hides cs = false) (bs : List Char) :
    Trace st (cs ++ '\x60' :: bs) rs st' ('\x60' :: bs) := by
  obtain rfl | ⟨rs, r, rfl⟩ := List.eq_nil_or_concat' rs
  · cases trace
    exact .nil st _
  obtain ⟨st₁, c, text, lexeme, first, scans, length, inRange, rfl, rfl, last⟩ :=
    trace.exists_last_of_template template
  have again : st₁.scan c (text ++ '\x60' :: bs) = some lexeme := by
    rcases last with ⟨expression, means, _⟩ | ⟨inside, isText, sameEnd⟩
    · exact State.scan_break expression scans means Rule.breaks_backtick
    · obtain ⟨decoded, decodes, same⟩ := exists_decode_of_scan scans inside isText
      have whole : (Text.Free.decode (c :: text)).1 = (c :: text).length := by
        rw [decodes, List.length_cons, length]
      have stays := Text.Free.decode_append_of_stops whole (sameEnd ▸ bare)
        (Text.Free.stops_backtick bs)
      rw [List.cons_append] at stays
      rw [scan_of_text inside isText, Rule.template, stays, decodes, same]
  exact (first.extend (List.cons_ne_nil c text) Rule.breaks_backtick bs).append
    (.cons again length inRange (.nil _ _))

/-- If it hides the backtick, the free text at its end takes the backtick in. -/
theorem hide (trace : Trace st cs rs st' []) (template : st'.mode = .template)
    (hidden : Text.Free.hides cs = true) :
    ∃ rs' r r' st'', rs = rs' ++ [r] ∧ r.token.kind = .literal ∧ r'.token.kind = .literal ∧
      (∃ text, r'.token.value = some (.string (text ++ "\x60"))) ∧
      Trace st (cs ++ ['\x60']) (rs' ++ [r']) st'' [] := by
  obtain rfl | ⟨rs, r, rfl⟩ := List.eq_nil_or_concat' rs
  · cases trace
    cases hidden
  obtain ⟨st₁, c, text, lexeme, first, scans, length, _, rfl, rfl, last⟩ :=
    trace.exists_last_of_template template
  rcases last with ⟨_, _, bare⟩ | ⟨inside, isText, sameEnd⟩
  · rw [bare] at hidden
    cases hidden
  obtain ⟨decoded, decodes, same⟩ := exists_decode_of_scan scans inside isText
  have whole : (Text.Free.decode (c :: text)).1 = (c :: text).length := by
    rw [decodes, List.length_cons, length]
  obtain ⟨front, found⟩ :=
    Text.Free.exists_decode_of_hides (c := '\x60') whole (sameEnd ▸ hidden) rfl
  have size : (c :: text).length + 1 = (text ++ ['\x60']).length + 1 := by simp
  rw [List.cons_append, size] at found
  have scans' : st₁.scan c (text ++ ['\x60'] ++ []) =
      some { kind := .literal, extra := (text ++ ['\x60']).length
             value := some (.string (String.ofList (front ++ ['\x60']))) } := by
    rw [List.append_nil, scan_of_text inside isText, Rule.template, found]
  have behind := Trace.cons scans' rfl rfl (.nil _ _)
  rw [List.append_nil] at behind
  have ending : String.ofList (front ++ ['\x60']) = String.ofList front ++ "\x60" :=
    String.ofList_append
  have value := congrArg (some ∘ Value.string) ending
  exact ⟨rs, _, _, _, rfl, congrArg Lexeme.kind same, rfl, ⟨_, value⟩,
    (first.extend (List.cons_ne_nil c text) Rule.breaks_backtick []).append behind⟩

end Trace

end Lexer

end Formulae
