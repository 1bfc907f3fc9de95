import Formulae.Proofs.Grammar.Derivation
import Formulae.Proofs.Spelling.Genuine

/-!
The texts of a template, and the text behind them.
-/

namespace Formulae

open Formulae.Lexer Formulae.Lexer.State

/-- Where the text of a template ends. -/
def Text.Free.Stops (rest : List Char) : Prop := decode rest = (0, [])

namespace Text.Free

theorem stops_backtick (cs : List Char) : Stops ('\x60' :: cs) := by
  cases cs <;> rfl

theorem stops_brace (cs : List Char) : Stops ('\x7b' :: cs) := by
  cases cs <;> rfl

theorem stops_of_mark {c : Char} (mark : c = '\x60' ∨ c = '\x7b') (cs : List Char) :
    Stops (c :: cs) := by
  rcases mark with rfl | rfl
  · exact stops_backtick cs
  · exact stops_brace cs

theorem Stops.first {c : Char} {cs : List Char} (stops : Stops (c :: cs)) :
    c = '\x60' ∨ c = '\x7b' := by
  by_contra other
  cases mark : isMark c with
  | false =>
    rw [Stops, decode_cons mark] at stops
    cases stops
  | true =>
    have backslash : c = '\\' := by
      simp only [isMark, Bool.or_eq_true, beq_iff_eq] at mark
      rcases mark with (backtick | brace) | backslash
      · exact absurd (.inl backtick) other
      · exact absurd (.inr brace) other
      · exact backslash
    subst backslash
    cases cs with
    | nil => cases stops
    | cons d ds =>
      rw [Stops, decode] at stops
      split at stops <;> cases stops

theorem stops_drop (cs : List Char) : Stops (cs.drop (decode cs).1) := by
  induction cs using decode.induct with
  | case1 => rfl
  | case2 c cs mark n text decoded inductionHypothesis =>
    rw [decode, if_pos mark]
    rw [decoded] at inductionHypothesis ⊢
    exact inductionHypothesis
  | case3 c cs mark n text decoded inductionHypothesis =>
    rw [decode, if_neg mark]
    rw [decoded] at inductionHypothesis ⊢
    exact inductionHypothesis
  | case4 c cs escape marks =>
    have stops := stops_of_mark marks cs
    rw [stops]
    exact stops
  | case5 c cs escape marks n text decoded inductionHypothesis =>
    rw [decode, if_neg marks]
    · rw [decoded] at inductionHypothesis ⊢
      exact inductionHypothesis
    · exact escape

theorem text_ne_nil {cs text : List Char} {n : Nat} (decoded : decode cs = (n + 1, text)) :
    text ≠ [] := by
  rintro rfl
  rw [decode.eq_def] at decoded
  split at decoded
  · cases decoded
  · split at decoded <;> cases decoded
  · split at decoded <;> cases decoded

theorem encode_first (c : Char) (cs : List Char) :
    ∃ d ds, encode (c :: cs) = d :: ds ∧ d ≠ '\x60' ∧ d ≠ '\x7b' := by
  cases mark : isMark c with
  | true => exact ⟨'\\', c :: encode cs, by simp [encode, mark], by decide, by decide⟩
  | false =>
    refine ⟨c, encode cs, by simp [encode, mark], ?_, ?_⟩ <;>
      rintro rfl <;>
      cases mark

end Text.Free

namespace Token

/-- The texts of a template are not empty. -/
theorem Scanned.exists_text {t : Token} (scanned : t.Scanned .template)
    (isText : t.kind = .literal) :
    ∃ s : List Char, s ≠ [] ∧ t.value = some (.string (String.ofList s)) := by
  obtain ⟨st, c, cs, lexeme, template, scans, inRange, rfl⟩ := scanned
  obtain ⟨rule, member, found⟩ := List.exists_of_findSome?_eq_some scans
  rw [template] at member
  simp only [Mode.rules, List.mem_cons, List.not_mem_nil, or_false] at member
  rcases member with rfl | rfl
  · rw [Rule.expressionMarker] at found
    split at found
    · cases found
      cases isText
    split at found
    · cases found
      cases isText
    · cases found
  · rw [Rule.template] at found
    split at found
    · cases found
    · next decoded =>
      cases found
      exact ⟨_, Text.Free.text_ne_nil decoded, rfl⟩

end Token

namespace Lexer

/-- The encoding of a text is scanned to the text. -/
theorem exists_scan_of_encode (position : Nat) {s rest : List Char} (filled : s ≠ [])
    (stops : Text.Free.Stops rest) :
    ∃ d ds, Text.Free.encode s = d :: ds ∧ (inside position).scan d (ds ++ rest) =
      some { kind := .literal, extra := ds.length, value := some (.string (String.ofList s)) } := by
  obtain ⟨c, cs, rfl⟩ := List.exists_cons_of_ne_nil filled
  obtain ⟨d, ds, spelled, backtick, brace⟩ := Text.Free.encode_first c cs
  have decoded := Text.Free.decode_encode (c :: cs) rest stops
  rw [spelled, List.cons_append, List.length_cons] at decoded
  have marker : Rule.expressionMarker false d (ds ++ rest) = none := by
    rw [Rule.expressionMarker, if_neg brace, if_neg backtick]
  have template : Rule.template false d (ds ++ rest) =
      some { kind := .literal, extra := ds.length
             value := some (.string (String.ofList (c :: cs))) } := by
    rw [Rule.template, decoded]
  refine ⟨d, ds, spelled, ?_⟩
  simp only [State.scan, inside, Mode.rules, List.findSome?_cons, marker, template]

/-- A text reads back from its encoding. -/
theorem reads_text (position : Nat) {s rest : List Char} (filled : s ≠ [])
    (stops : Text.Free.Stops rest) :
    ∃ u position', u.kind = .literal ∧ u.value = some (.string (String.ofList s)) ∧
      Reads (inside position) (Text.Free.encode s) rest [u] (inside position') := by
  obtain ⟨d, ds, spelled, scans⟩ := exists_scan_of_encode position filled stops
  rw [spelled]
  exact ⟨_, _, rfl, rfl, Reads.token scans rfl rfl rfl⟩

end Lexer

end Formulae
