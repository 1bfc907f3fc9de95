import Formulae.Proofs.Spelling.Lexing
import Formulae.Proofs.Spelling.Negation

/-!
Literals and names read again.
-/

namespace Formulae

open Formulae.Lexer Formulae.Lexer.State

/-- Scanned again where an operand is expected, the lexeme is the same and an operand. -/
structure Lexeme.Stable (c : Char) (cs : List Char) (lexeme : Lexeme) : Prop where
  rescans : ∀ position rest, Apart rest →
    (expecting position).scan c (cs.take lexeme.extra ++ rest) = some lexeme
  length : (cs.take lexeme.extra).length = lexeme.extra
  means : lexeme.kind.isIgnorable = false
  keeps : lexeme.mode = none
  ends : lexeme.endsOperand = true

/-- A backslash is the last character or has another behind it. -/
theorem Text.Quoted.ne_backslash {c : Char} {cs : List Char} (last : c = '\\' → cs = [] → False)
    (escape : ∀ d ds, c = '\\' → cs = d :: ds → False) : c ≠ '\\' := by
  intro same
  cases cs with
  | nil => exact last same rfl
  | cons d ds => exact escape d ds same rfl

namespace Rule

variable {afterOperand : Bool} {c : Char} {cs : List Char} {lexeme : Lexeme}

theorem stable_number (found : number afterOperand c cs = some lexeme) :
    lexeme.Stable c cs := by
  obtain ⟨n, spelled, extra, same⟩ := Numeral.exists_of_number found
  refine ⟨fun position rest apart => ?_, extra, ?_, ?_, ?_⟩
  · have reads := n.number_eq spelled apart.ends
    rw [extra, ← same] at reads
    simp only [State.scan, expecting, Mode.rules, List.findSome?_cons, reads]
  all_goals rw [same]; rfl

theorem splitSign_cons (plus : c ≠ '+') (minus : c ≠ '-') :
    splitSign (c :: cs) = ([], c :: cs) := by
  rw [splitSign.eq_def]
  split
  · next same => cases same; exact absurd rfl plus
  · next same => cases same; exact absurd rfl minus
  · rfl

theorem number_eq_none (plus : c ≠ '+') (minus : c ≠ '-') (point : c ≠ '.')
    (digit : c.isDigit = false) : number afterOperand c cs = none := by
  simp [number, splitSign_cons plus minus, digit, fractionOf_cons point]

theorem exists_of_body {cs body : List Char} (found : Text.Quoted.body? cs = some body) :
    (∃ behind, cs = body ++ '"' :: behind) ∧
      ∀ rest, Text.Quoted.body? (body ++ '"' :: rest) = some body := by
  induction cs using Text.Quoted.body?.induct generalizing body with
  | case1 => cases found
  | case2 cs =>
    cases found
    exact ⟨⟨cs, rfl⟩, fun _ => rfl⟩
  | case3 => cases found
  | case4 c cs inductionHypothesis =>
    obtain ⟨inner, reads, rfl⟩ := Option.map_eq_some_iff.mp found
    obtain ⟨⟨behind, rfl⟩, again⟩ := inductionHypothesis reads
    refine ⟨⟨behind, rfl⟩, fun rest => ?_⟩
    rw [List.cons_append, List.cons_append, Text.Quoted.body?, again]
    rfl
  | case5 c cs quote last escape inductionHypothesis =>
    have backslash := Text.Quoted.ne_backslash last escape
    rw [Text.Quoted.body?_cons quote backslash] at found
    obtain ⟨inner, reads, rfl⟩ := Option.map_eq_some_iff.mp found
    obtain ⟨⟨behind, rfl⟩, again⟩ := inductionHypothesis reads
    refine ⟨⟨behind, rfl⟩, fun rest => ?_⟩
    rw [List.cons_append, Text.Quoted.body?_cons quote backslash, again]
    rfl

theorem stable_string (found : string afterOperand c cs = some lexeme) :
    lexeme.Stable c cs := by
  rw [string] at found
  split at found
  · next quote =>
    subst quote
    obtain ⟨body, reads, rfl⟩ := Option.map_eq_some_iff.mp found
    obtain ⟨⟨behind, rfl⟩, again⟩ := exists_of_body reads
    have length : body.length + 1 = (body ++ ['"']).length := by rw [List.length_append]; rfl
    have taken : (body ++ '"' :: behind).take (body.length + 1) = body ++ ['"'] := by
      rw [List.append_cons, length, List.take_left]
    refine ⟨fun position rest _ => ?_, ?_, rfl, rfl, rfl⟩
    · have scans := again rest
      change (expecting position).scan '"'
        ((body ++ '"' :: behind).take (body.length + 1) ++ rest) = _
      rw [taken, List.append_assoc, List.singleton_append]
      simp only [State.scan, expecting, Mode.rules, List.findSome?_cons, string, if_true, scans,
        number_eq_none (c := '"') (by decide) (by decide) (by decide) (by decide)]
      rfl
    · exact (congrArg List.length taken).trans length.symm
  · cases found

theorem isNameChar_of_isHexDigit {c : Char} (digit : isHexDigit c = true) :
    isNameChar c = true := by
  rw [isHexDigit, Color.hexDigit?] at digit
  simp only [Char.le_def, UInt32.le_iff_toNat_le] at digit
  have value : c.val.toNat = c.toNat := rfl
  rw [isNameChar_iff]
  split at digit
  · next range => simp at range; omega
  split at digit
  · next range => simp at range; omega
  split at digit
  · next range => simp at range; omega
  · cases digit

theorem isDigit_of_isNameStart {c : Char} (start : isNameStart c = true) :
    c.isDigit = false := by
  rw [Bool.eq_false_iff, Ne, Char.isDigit_iff_toNat]
  rcases isNameStart_iff.mp start with letter | rfl
  · have least : '0'.toNat = 48 := rfl
    have greatest : '9'.toNat = 57 := rfl
    omega
  · decide

theorem stable_color (found : color afterOperand c cs = some lexeme) : lexeme.Stable c cs := by
  rw [color] at found
  split at found
  · next form =>
    obtain ⟨rfl, long⟩ := form
    cases found
    have digits : ∀ c ∈ (cs.takeWhile isHexDigit).take 9, isHexDigit c = true :=
      fun _ member => List.mem_takeWhile_imp (List.mem_of_mem_take member)
    have short : ((cs.takeWhile isHexDigit).take 9).length ≤ 9 := List.length_take_le _ _
    have taken : cs.take ((cs.takeWhile isHexDigit).take 9).length =
        (cs.takeWhile isHexDigit).take 9 := by
      have front : (cs.takeWhile isHexDigit).take 9 <+: cs :=
        (List.take_prefix _ _).trans (List.takeWhile_prefix _)
      exact (List.prefix_iff_eq_take.mp front).symm
    refine ⟨fun position rest apart => ?_, ?_, rfl, rfl, rfl⟩
    · change (expecting position).scan '#'
        (cs.take ((cs.takeWhile isHexDigit).take 9).length ++ rest) = _
      rw [taken]
      generalize (cs.takeWhile isHexDigit).take 9 = ds at digits short long
      have again : ((ds ++ rest).takeWhile isHexDigit).take 9 = ds := by
        rw [List.takeWhile_append_of_pos digits,
          apart.takeWhile fun _ => isNameChar_of_isHexDigit, List.append_nil,
          List.take_of_length_le short]
      have scans : color false '#' (ds ++ rest) =
          some (.literal ds.length (some (.color (Color.decode ('#' :: ds))))) := by
        rw [color, again]
        exact if_pos ⟨rfl, long⟩
      simp only [State.scan, expecting, Mode.rules, List.findSome?_cons, scans,
        number_eq_none (c := '#') (by decide) (by decide) (by decide) (by decide), string]
      rfl
    · exact congrArg List.length taken
  · cases found

theorem stable_identifier (found : identifier afterOperand c cs = some lexeme) :
    lexeme.Stable c cs := by
  rw [identifier] at found
  split at found
  · next start =>
    cases found
    have letters : ∀ c ∈ cs.takeWhile isNameChar, isNameChar c = true :=
      fun _ member => List.mem_takeWhile_imp member
    have taken : cs.take (cs.takeWhile isNameChar).length = cs.takeWhile isNameChar :=
      (List.prefix_iff_eq_take.mp (List.takeWhile_prefix _)).symm
    have other {d : Char} (different : isNameStart d = false) : c ≠ d := by
      rintro rfl
      rw [start] at different
      cases different
    refine ⟨fun position rest apart => ?_, congrArg List.length taken, rfl, rfl, rfl⟩
    change (expecting position).scan c (cs.take (cs.takeWhile isNameChar).length ++ rest) = _
    rw [taken]
    generalize cs.takeWhile isNameChar = ds at letters
    have again : (ds ++ rest).takeWhile isNameChar = ds := by
      rw [List.takeWhile_append_of_pos letters, apart.takeWhile fun _ => id, List.append_nil]
    have scans : identifier false c (ds ++ rest) =
        some { kind := .identifier, extra := ds.length, endsOperand := true } := by
      rw [identifier, if_pos start, again]
    have string : Rule.string false c (ds ++ rest) = none := if_neg (other (by decide))
    have color : Rule.color false c (ds ++ rest) = none :=
      if_neg fun form => other (by decide) form.1
    simp only [State.scan, expecting, Mode.rules, List.findSome?_cons, scans, string, color,
      number_eq_none (other (d := '+') (by decide)) (other (d := '-') (by decide))
        (other (d := '.') (by decide)) (isDigit_of_isNameStart start)]
  · cases found

end Rule

end Formulae
