import Formulae.Proofs.Spelling.Operand

/-!
The tokens that a text can have, one by one and in order.
-/

namespace Formulae

open Formulae.Lexer Formulae.Lexer.State

/-- What can be scanned in an expression: an operand, something of no consequence for the
mode, or a marker of a template. -/
inductive Scanned (afterOperand : Bool) (c : Char) (cs : List Char) (lexeme : Lexeme) : Prop
  | number (found : Rule.number afterOperand c cs = some lexeme)
  | string (found : Rule.string afterOperand c cs = some lexeme)
  | color (found : Rule.color afterOperand c cs = some lexeme)
  | name (found : Rule.identifier afterOperand c cs = some lexeme)
  | neutral (other : lexeme.kind ≠ .literal ∧ lexeme.kind ≠ .identifier)
      (unmarked : lexeme.kind = .operator → c ≠ '\x60' ∧ c ≠ '\x7b' ∧ c ≠ '\x7d')
      (keeps : lexeme.mode = none)
  | marker (marked : c = '\x60' ∨ c = '\x7d') (same : lexeme = .marker .template false)

namespace Rule

variable {afterOperand : Bool} {c : Char} {cs : List Char} {lexeme : Lexeme}

theorem kind_of_number (found : number afterOperand c cs = some lexeme) :
    lexeme.kind = .literal := by
  obtain ⟨_, _, _, same⟩ := Numeral.exists_of_number found
  rw [same]
  rfl

theorem kind_of_string (found : string afterOperand c cs = some lexeme) :
    lexeme.kind = .literal := by
  rw [string] at found
  split at found
  · obtain ⟨_, _, rfl⟩ := Option.map_eq_some_iff.mp found
    rfl
  · cases found

theorem kind_of_color (found : color afterOperand c cs = some lexeme) :
    lexeme.kind = .literal := by
  rw [color] at found
  split at found
  · cases found
    rfl
  · cases found

theorem kind_of_identifier (found : identifier afterOperand c cs = some lexeme) :
    lexeme.kind = .identifier := by
  rw [identifier] at found
  split at found
  · cases found
    rfl
  · cases found

theorem scanned_comment (found : comment afterOperand c cs = some lexeme) :
    Scanned afterOperand c cs lexeme := by
  unfold comment at found
  split at found
  · cases found
    exact .neutral (by simp) (by simp) rfl
  · cases found
    exact .neutral (by simp) (by simp) rfl
  · cases found

theorem scanned_pair (found : pair afterOperand c cs = some lexeme) :
    Scanned afterOperand c cs lexeme := by
  unfold pair at found
  split at found
  · next d ds =>
    split at found
    · next member =>
      cases found
      refine .neutral (by simp) (fun _ => ?_) rfl
      refine ⟨?_, ?_, ?_⟩ <;>
        rintro rfl <;>
        simp [pairs] at member
    · cases found
  · cases found

theorem scanned_single (found : single afterOperand c cs = some lexeme) :
    Scanned afterOperand c cs lexeme := by
  rw [single] at found
  split at found
  · next member =>
    cases found
    refine .neutral (by simp) (fun _ => ?_) rfl
    refine ⟨?_, ?_, ?_⟩ <;>
      rintro rfl <;>
      exact absurd member (by decide)
  · cases found

theorem scanned_templateMarker (found : templateMarker afterOperand c cs = some lexeme) :
    Scanned afterOperand c cs lexeme := by
  rw [templateMarker] at found
  split at found
  · next marked =>
    cases found
    exact .marker marked rfl
  · cases found

theorem scanned_blank (found : blank afterOperand c cs = some lexeme) :
    Scanned afterOperand c cs lexeme := by
  rw [blank] at found
  split at found
  · cases found
    exact .neutral (by simp) (by simp) rfl
  · cases found

theorem scanned_sentinel (found : sentinel afterOperand c cs = some lexeme) :
    Scanned afterOperand c cs lexeme := by
  rw [sentinel] at found
  split at found
  · cases found
    exact .neutral (by simp) (by simp) rfl
  · cases found

end Rule

theorem Lexer.State.scanned {st : Lexer.State} {c : Char} {cs : List Char} {lexeme : Lexeme}
    (scans : st.scan c cs = some lexeme) (expression : st.mode = .expression) :
    Scanned st.afterOperand c cs lexeme := by
  obtain ⟨rule, member, found⟩ := List.exists_of_findSome?_eq_some scans
  rw [expression] at member
  simp only [Mode.rules, List.mem_cons, List.not_mem_nil, or_false] at member
  rcases member with rfl | rfl | rfl | rfl | rfl | rfl | rfl | rfl | rfl | rfl
  · exact .number found
  · exact .string found
  · exact .color found
  · exact .name found
  · exact Rule.scanned_comment found
  · exact Rule.scanned_pair found
  · exact Rule.scanned_single found
  · exact Rule.scanned_templateMarker found
  · exact Rule.scanned_blank found
  · exact Rule.scanned_sentinel found

namespace Scanned

variable {afterOperand : Bool} {c : Char} {cs : List Char} {lexeme : Lexeme}

theorem of_literal (scanned : Scanned afterOperand c cs lexeme)
    (isLiteral : lexeme.kind = .literal) :
    Rule.number afterOperand c cs = some lexeme ∨ Rule.string afterOperand c cs = some lexeme ∨
      Rule.color afterOperand c cs = some lexeme := by
  cases scanned with
  | number found => exact .inl found
  | string found => exact .inr (.inl found)
  | color found => exact .inr (.inr found)
  | name found => cases (Rule.kind_of_identifier found).symm.trans isLiteral
  | neutral other => exact absurd isLiteral other.1
  | marker _ same =>
    subst same
    cases isLiteral

theorem of_identifier (scanned : Scanned afterOperand c cs lexeme)
    (isName : lexeme.kind = .identifier) : Rule.identifier afterOperand c cs = some lexeme := by
  cases scanned with
  | number found => cases (Rule.kind_of_number found).symm.trans isName
  | string found => cases (Rule.kind_of_string found).symm.trans isName
  | color found => cases (Rule.kind_of_color found).symm.trans isName
  | name found => exact found
  | neutral other => exact absurd isName other.2
  | marker _ same =>
    subst same
    cases isName

end Scanned

namespace Token

/-- Scanned in this mode. -/
def Scanned (mode : Mode) (t : Token) : Prop :=
  ∃ (st : Lexer.State) (c : Char) (cs : List Char) (lexeme : Lexeme), st.mode = mode ∧
    st.scan c cs = some lexeme ∧ lexeme.outOfRange = false ∧
      t = st.token lexeme (c :: cs.take lexeme.extra)

/-- Tokens that differ in their place only. -/
structure Same (t u : Token) : Prop where
  kind : u.kind = t.kind
  text : u.text = t.text
  value : u.value = t.value

/-- A literal or a name, read again where an operand is expected. -/
theorem Scanned.reads {t : Token} (scanned : t.Scanned .expression)
    (operand : t.kind = .literal ∨ t.kind = .identifier) (position : Nat) {rest : List Char}
    (apart : Apart rest) :
    ∃ u position', t.Same u ∧
      Reads (expecting position) t.text.toList rest [u] (complete position') := by
  obtain ⟨st, c, cs, lexeme, expression, scans, inRange, rfl⟩ := scanned
  have scanned := Lexer.State.scanned scans expression
  have stable : lexeme.Stable c cs := by
    rcases operand with isLiteral | isName
    · rcases scanned.of_literal isLiteral with found | found | found
      · exact Rule.stable_number found
      · exact Rule.stable_string found
      · exact Rule.stable_color found
    · exact Rule.stable_identifier (scanned.of_identifier isName)
  have again := Reads.token (stable.rescans position rest apart) stable.length.symm inRange
    stable.means
  refine ⟨(expecting position).token lexeme (c :: cs.take lexeme.extra),
    position + Text.width (c :: cs.take lexeme.extra), ⟨rfl, rfl, rfl⟩, ?_⟩
  have text : (st.token lexeme (c :: cs.take lexeme.extra)).text.toList =
      c :: cs.take lexeme.extra := String.toList_ofList
  have state (width : Nat) : (expecting position).after lexeme width =
      complete (position + width) := by
    simp [State.after, stable.means, stable.keeps, stable.ends, expecting, complete]
  rw [text]
  rwa [state] at again

/-- An unsigned number starts with a digit or with its point. -/
def Unsigned (text : List Char) : Prop :=
  ∃ c cs, text = c :: cs ∧ (c.isDigit = true ∨ c = '.')

theorem Scanned.exists_numeral {t : Token} (scanned : t.Scanned .expression)
    (isLiteral : t.kind = .literal) (unsigned : Unsigned t.text.toList) :
    ∃ (n : Numeral) (v : Value), n.sign = [] ∧ n.chars = t.text.toList ∧ n.value = some v ∧
      t.value = some v := by
  obtain ⟨st, c, cs, lexeme, expression, scans, inRange, rfl⟩ := scanned
  obtain ⟨d, ds, spelled, opens⟩ := unsigned
  have text : (st.token lexeme (c :: cs.take lexeme.extra)).text.toList =
      c :: cs.take lexeme.extra := String.toList_ofList
  rw [text] at spelled ⊢
  cases spelled
  have other {d : Char} (different : ¬ (d.isDigit = true ∨ d = '.')) : c ≠ d := by
    rintro rfl
    exact different opens
  have number : Rule.number st.afterOperand c cs = some lexeme := by
    rcases (Lexer.State.scanned scans expression).of_literal isLiteral with found | found | found
    · exact found
    · rw [Rule.string, if_neg (other (by decide))] at found
      cases found
    · rw [Rule.color, if_neg fun form => other (by decide) form.1] at found
      cases found
  obtain ⟨n, chars, _, same⟩ := Numeral.exists_of_number number
  have range : n.value.isNone = false := by
    rw [same] at inRange
    exact inRange
  obtain ⟨v, denotes⟩ := Option.isSome_iff_exists.mp (Option.isNone_eq_false_iff.mp range)
  have value : lexeme.value = n.value := by
    rw [same]
    rfl
  refine ⟨n, v, ?_, chars, denotes, value.trans denotes⟩
  rcases n.isSign with sign | sign | sign
  · exact sign
  · rw [Numeral.chars, sign] at chars
    exact absurd (List.cons.inj chars).1.symm (other (by decide))
  · rw [Numeral.chars, sign] at chars
    exact absurd (List.cons.inj chars).1.symm (other (by decide))

theorem Scanned.isNameStart {t : Token} (scanned : t.Scanned .expression)
    (isName : t.kind = .identifier) :
    ∃ c cs, t.text.toList = c :: cs ∧ Rule.isNameStart c = true := by
  obtain ⟨st, c, cs, lexeme, expression, scans, inRange, rfl⟩ := scanned
  refine ⟨c, cs.take lexeme.extra, String.toList_ofList, ?_⟩
  have found := (Lexer.State.scanned scans expression).of_identifier isName
  rw [Rule.identifier] at found
  split at found
  · next start => exact start
  · cases found

/-- A literal starts with a quote, a number sign, a sign, a digit or a point. -/
theorem Scanned.literal_first {t : Token} (scanned : t.Scanned .expression)
    (isLiteral : t.kind = .literal) :
    ∃ c cs, t.text.toList = c :: cs ∧
      (c = '"' ∨ c = '#' ∨ c = '+' ∨ c = '-' ∨ c.isDigit = true ∨ c = '.') := by
  obtain ⟨st, c, cs, lexeme, expression, scans, inRange, rfl⟩ := scanned
  refine ⟨c, cs.take lexeme.extra, String.toList_ofList, ?_⟩
  rcases (Lexer.State.scanned scans expression).of_literal isLiteral with found | found | found
  · obtain ⟨n, chars, _, _⟩ := Numeral.exists_of_number found
    obtain ⟨d, ds, body, first⟩ := n.body_first
    rw [Numeral.chars, body] at chars
    rcases n.isSign with sign | sign | sign
    · rw [sign] at chars
      rw [← (List.cons.inj chars).1]
      exact .inr (.inr (.inr (.inr first)))
    · rw [sign] at chars
      exact .inr (.inr (.inl (List.cons.inj chars).1.symm))
    · rw [sign] at chars
      exact .inr (.inr (.inr (.inl (List.cons.inj chars).1.symm)))
  · rw [Rule.string] at found
    split at found
    · next quote => exact .inl quote
    · cases found
  · rw [Rule.color] at found
    split at found
    · next form => exact .inr (.inl form.1)
    · cases found

/-- Behind a minus sign, an unsigned number reads as its negation. -/
theorem Scanned.reads_negated {t : Token} (scanned : t.Scanned .expression)
    (isLiteral : t.kind = .literal) (unsigned : Unsigned t.text.toList) (position : Nat)
    {rest : List Char} (apart : Apart rest) :
    ∃ (u : Token) (v v' : Value) (position' : Nat), t.value = some v ∧ u.kind = .literal ∧
      u.text = "-" ++ t.text ∧ u.value = some v' ∧ v.Opposite v' ∧
      Reads (expecting position) ('-' :: t.text.toList) rest [u] (complete position') := by
  obtain ⟨n, v, sign, chars, denotes, value⟩ := scanned.exists_numeral isLiteral unsigned
  obtain ⟨v', negated, opposite⟩ := Numeral.exists_opposite sign denotes
  have spelled : n.negated.chars = '-' :: t.text.toList := by
    rw [Numeral.chars_negated sign, chars]
  have number := n.negated.number_eq spelled apart.ends
  have scans : (expecting position).scan '-' (t.text.toList ++ rest) =
      some (.literal t.text.toList.length n.negated.value) := by
    simp only [State.scan, expecting, Mode.rules, List.findSome?_cons, number]
  rw [negated] at scans
  refine ⟨_, v, v', _, value, rfl, ?_, rfl, opposite, Reads.token scans rfl rfl rfl⟩
  apply String.toList_inj.mp
  simp [State.token]

end Token

end Formulae
