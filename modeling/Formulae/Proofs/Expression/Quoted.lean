import Formulae.Proofs.Expression.Literal
import Formulae.Proofs.Token.Tiling

/-!
Text between double quotes.

Every text has a quoted form, which is one literal and gives the text back. What stands between
the quotes of a literal is made of plain characters and of pairs of a backslash and a character.
The text is decoded pair by pair, so that each backslash has its character.
-/

namespace Formulae

namespace Text.Quoted

variable {body text : List Char}

/-- The pieces that may stand between quotes, and the text that they stand for. -/
inductive Means : List Char → List Char → Prop
  | nil : Means [] []
  | plain {c : Char} {body text : List Char} (quote : c ≠ '"') (backslash : c ≠ '\\')
      (behind : Means body text) : Means (c :: body) (c :: text)
  | pair (c : Char) {body text : List Char} (behind : Means body text) :
      Means ('\\' :: c :: body) (escaped c ++ text)

theorem Means.exists_of_plain {c : Char} (backslash : c ≠ '\\') (means : Means (c :: body) text) :
    ∃ text', Means body text' := by
  cases means with
  | plain _ _ behind => exact ⟨_, behind⟩
  | pair => exact absurd rfl backslash

theorem Means.exists_of_pair {c : Char} (means : Means ('\\' :: c :: body) text) :
    ∃ text', Means body text' := by
  cases means with
  | plain _ backslash _ => exact absurd rfl backslash
  | pair _ behind => exact ⟨_, behind⟩

/-- Behind whole pieces come whole pieces. -/
theorem Means.exists_behind {front rest text' : List Char} (means : Means (front ++ rest) text)
    (whole : Means front text') : ∃ text'', Means rest text'' := by
  induction whole generalizing text with
  | nil => exact ⟨text, means⟩
  | plain _ backslash _ inductionHypothesis =>
    obtain ⟨_, behind⟩ := Means.exists_of_plain backslash means
    exact inductionHypothesis behind
  | pair _ _ inductionHypothesis =>
    obtain ⟨_, behind⟩ := Means.exists_of_pair means
    exact inductionHypothesis behind

theorem not_means_backslash : ¬ Means ['\\'] text := by
  intro means
  cases means with
  | plain _ backslash _ => exact backslash rfl

/-- What stands before the closing quote is made of whole pieces. -/
theorem means_of_body {cs : List Char} (found : body? cs = some body) :
    Means body (decode body) := by
  induction cs using body?.induct generalizing body with
  | case1 => cases found
  | case2 =>
    cases found
    exact .nil
  | case3 => cases found
  | case4 c cs inductionHypothesis =>
    obtain ⟨inner, reads, rfl⟩ := Option.map_eq_some_iff.mp found
    rw [decode]
    exact .pair c (inductionHypothesis reads)
  | case5 c cs quote last escape inductionHypothesis =>
    have backslash := ne_backslash last escape
    rw [body?_cons quote backslash] at found
    obtain ⟨inner, reads, rfl⟩ := Option.map_eq_some_iff.mp found
    rw [decode_cons backslash]
    exact .plain quote backslash (inductionHypothesis reads)

/-- A text in quotes, with a backslash before each of its quotes and backslashes. -/
def quote (text : List Char) : List Char := '"' :: (encode text ++ ['"'])

end Text.Quoted

open Formulae.Lexer

namespace Lexer

theorem scan_quote (text : List Char) :
    State.scan { mode := .expression } '"' (Text.Quoted.encode text ++ ['"']) =
      some (.literal ((Text.Quoted.encode text).length + 1)
        (some (.string (String.ofList text)))) := by
  have number : Rule.number false '"' (Text.Quoted.encode text ++ ['"']) = none :=
    Rule.number_eq_none (by decide) (by decide) (by decide) (by decide)
  have string : Rule.string false '"' (Text.Quoted.encode text ++ ['"']) =
      some (.literal ((Text.Quoted.encode text).length + 1)
        (some (.string (String.ofList text)))) := by
    rw [Rule.string, if_pos rfl, Text.Quoted.body?_encode, Option.map_some,
      Text.Quoted.decode_encode]
  simp only [State.scan, Mode.rules, List.findSome?_cons, number, string]

end Lexer

theorem Text.Quoted.exists_only_of_quote (s : String) :
    ∃ t, Token.Only .expression (quote s.toList) t ∧ t.kind = .literal ∧
      t.value = some (.string s) := by
  have only := Token.only_of_scan (scan_quote s.toList) (by simp [Lexeme.literal]) rfl rfl
  refine ⟨_, only, rfl, ?_⟩
  rw [State.token, Lexeme.literal, String.ofList_toList]

/-- Every text is the value of its quoted form, which is a single token and an expression. The
body of whatever is matched as quoted text lies between characters, and it is decoded as whole
pieces: the decoder does not come to a backslash with nothing behind it. -/
theorem Text.Quoted.quote_denotes :
    (∀ s : String,
      (∃ t, Token.Only .expression (quote s.toList) t ∧ t.kind = .literal ∧
        t.value = some (.string s)) ∧
      ∀ presets flavor, flavor ≠ .template → flavor ≠ .assignment →
        let e := Expression.compile presets flavor (String.ofList (quote s.toList))
        e.isValid = true ∧ ∀ host w, e.execute host w = .ok (.string s) w) ∧
    ∀ afterOperand c cs lexeme, Rule.string afterOperand c cs = some lexeme →
      let matched := c :: cs.take lexeme.extra
      ∃ body, slice? matched ⟨1, width matched - 1⟩ = some body ∧ Means body (decode body) ∧
        (∀ front rest text, body = front ++ rest → Means front text → rest ≠ ['\\']) ∧
        lexeme.value = some (.string (String.ofList (decode body))) := by
  constructor
  · intro s
    obtain ⟨t, only, isLiteral, value⟩ := exists_only_of_quote s
    refine ⟨⟨t, only, isLiteral, value⟩, fun presets flavor bare free => ?_⟩
    refine Expression.execute_of_only presets bare free ?_ isLiteral value
    rwa [String.toList_ofList]
  · intro afterOperand c cs lexeme found matched
    obtain ⟨body, reads, same, value⟩ := Rule.exists_body_of_string found
    have means := means_of_body reads
    have slice := Rule.slice?_of_quotes body
    rw [← same] at slice
    refine ⟨body, slice, means, ?_, value⟩
    rintro front rest _ rfl whole rfl
    obtain ⟨_, alone⟩ := means.exists_behind whole
    exact not_means_backslash alone

/-- A text with a quote and a backslash at its end, and a literal with a line feed, a letter of two
bytes and a quote, before other text. -/
theorem Text.Quoted.quote_denotes_of_escapes :
    let e := Expression.compile (.ofVocabulary {}) .plain "\"a\\\"b\\\\\""
    (e.isValid = true ∧ ∀ host w, e.execute host w = .ok (.string "a\"b\\") w) ∧
      ∃ lexeme, Rule.string false '"' "\\né\\\"\" + 1".toList = some lexeme ∧
        lexeme.value = some (.string "\né\"") ∧
        ∃ body, slice? ('"' :: "\\né\\\"\" + 1".toList.take lexeme.extra) ⟨1, 7⟩ = some body ∧
          Means body (decode body) := by
  intro e
  obtain ⟨denotes, decodes⟩ := quote_denotes
  refine ⟨(denotes "a\"b\\").2 (.ofVocabulary {}) .plain (by decide) (by decide), _, rfl, rfl, ?_⟩
  obtain ⟨body, slice, means, _⟩ := decodes false '"' "\\né\\\"\" + 1".toList _ rfl
  exact ⟨body, slice, means⟩

end Formulae
