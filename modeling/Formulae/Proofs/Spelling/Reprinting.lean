import Formulae.Proofs.Spelling.RoundTrip
import Formulae.Proofs.Spelling.Word

/-!
The tokens of printed trees.

The text of a tree has the tokens that the tree was parsed from, but for the minus signs that
join numbers. The text of a bare template has its tokens in backticks.
-/

namespace Formulae

open Formulae.Lexer Formulae.Parser

/-- The words of a text as the words of an expression. -/
def Flavor.enclose (ws : List Word) : Flavor → List Word
  | template => .operator "\x60" :: (ws ++ [.operator "\x60"])
  | _ => ws

variable {assigning : Bool} {d : Dialect}

/-- What a phrase reads as has the words of the phrase, joined. -/
theorem Derivation.words_of_respelled {l m : Level} (k : Derivation assigning l)
    (k' : Derivation assigning m) (respelled : Tree.Respelled false (k.tree d) (k'.tree d)) :
    Token.words .expression k'.tokens = Word.joined false (k.tree d).words := by
  have said := k'.words_tokens (d := d) []
  have joined := k.joined_words respelled []
  simp only [List.append_nil, Word.sign_false, List.nil_append, Token.words, Word.joined]
    at said joined
  rw [said, joined]

theorem Fragments.exists_last (fragments : Fragments assigning) :
    fragments.tokens = [] ∨
      ∃ front last, fragments.tokens = front ++ [last] ∧ last.kind ≠ .sentinel := by
  cases fragments with
  | nil => exact .inl rfl
  | text t isText others =>
    rcases others.exists_last with none | ⟨front, last, same, other⟩
    · exact .inr ⟨[], t, by rw [tokens, none]; rfl, by simp [isText]⟩
    · exact .inr ⟨t :: front, last, by rw [tokens, same]; rfl, other⟩
  | embed o _ inner c isClose others =>
    rcases others.exists_last with none | ⟨front, last, same, other⟩
    · exact .inr ⟨o :: inner.tokens, c, by rw [tokens, none]; rfl,
        by simp [(Token.isOperator_iff.mp isClose).1]⟩
    · exact .inr ⟨o :: (inner.tokens ++ c :: front), last, by simp [same], other⟩

/-- No sentinel stands behind the fragments of a template. -/
theorem Fragments.body_eq (fragments : Fragments assigning) {ts : List Token}
    (same : fragments.tokens = Token.significant ts) : Token.body ts = fragments.tokens := by
  rcases fragments.exists_last with none | ⟨front, last, ends, other⟩
  · rw [Token.body, ← same, none]
    rfl
  · rw [ends, Token.body_eq_iff other]
    exact ⟨[], by simp [← same, ends], by simp⟩

/-- What is parsed as a bare template is made of fragments. -/
theorem exists_fragments (standard : d.Standard assigning) {ts : List Token} {t : Tree}
    (parsed : Tree.parseTemplate d ts = .ok t) :
    ∃ (fragments : Fragments assigning) (span : Span), fragments.tokens = Token.significant ts ∧
      t = .template (.over span (Part.embeds (fragments.parts d))) (fragments.parts d) ∧
      t.depth ≤ Tree.depthLimit := by
  obtain ⟨⟨ps, c⟩, reads, limits⟩ := bind_eq_ok_iff.mp parsed
  obtain ⟨within, rfl⟩ := limited_eq_ok_iff.mp limits
  obtain ⟨fragments, rfl, tokens⟩ :=
    (sound_expression standard Tree.depthLimit).allParts (Nat.le_refl _)
      (allParts_eq_ok_iff.mp reads)
  exact ⟨fragments, _, tokens, rfl, within⟩

/-- A template between backticks. -/
def Fragments.quoted (fragments : Fragments assigning) : Derivation assigning .primary :=
  .template ⟨.operator, default, "\x60", none⟩ rfl fragments ⟨.operator, default, "\x60", none⟩ rfl

theorem Fragments.words_quoted (fragments : Fragments assigning) :
    (fragments.quoted.tree d).words =
      Flavor.template.enclose (Token.words .template fragments.tokens) := by
  have said := fragments.words_tokens (d := d) []
  simp only [List.append_nil, Token.words] at said
  rw [said]
  rfl

/-- What is parsed as a text of a flavor has the text of a phrase with the words that were
parsed, enclosed as the flavor has it. -/
theorem Tree.exists_phrase (standard : d.Standard assigning) {flavor : Flavor}
    {source : List Char} {ts : List Token} {t : Tree}
    (read : Token.read flavor.mode source = .ok ts) (parsed : flavor.parse d ts = .ok t) :
    ∃ (l : Level) (k : Derivation assigning l), k.Scanned ∧ (k.tree d).depth ≤ Tree.depthLimit ∧
      (k.tree d).chars = t.chars ∧ (k.tree d).isAssignment = t.isAssignment ∧
      (k.tree d).words = flavor.enclose (Token.words flavor.mode (Token.body ts)) := by
  cases flavor with
  | template =>
    obtain ⟨fragments, span, tokens, rfl, within⟩ := exists_fragments standard parsed
    have scanned := fragments.scanned_of_read read tokens
    refine ⟨_, fragments.quoted, scanned, within, rfl, rfl, ?_⟩
    rw [fragments.body_eq tokens]
    exact fragments.words_quoted
  | plain | readOnly | assignment =>
    obtain ⟨k, tokens, rfl⟩ := exists_derivation standard parsed
    refine ⟨_, k, k.scanned_of_read read tokens, depth_of_parseWithin parsed, rfl, rfl, ?_⟩
    have said := k.words_tokens (d := d) []
    simp only [List.append_nil, Token.words] at said
    rw [← said, tokens]
    rfl

/-- The text of a tree is read as the tokens that the tree was parsed from: the words are the
same, free text by what it stands for, without sentinels at the end, with a bare template in
backticks, and with each minus sign joined to a number without a sign that is right behind it.
The text is parsed again, as an expression of the same dialect, to a tree with the same text.
If the first text compiles as an expression, so does the second. -/
theorem Tree.printed_tokens (names : Vocabulary) (flavor : Flavor) {content : String}
    {ts : List Token} {t : Tree} (read : Token.read flavor.mode content.toList = .ok ts)
    (parsed : flavor.parse ((Presets.ofVocabulary names).get flavor) ts = .ok t) :
    ∃ us u, Token.read .expression t.text.toList = .ok us ∧
      Token.words .expression us =
        Word.joined false (flavor.enclose (Token.words flavor.mode (Token.body ts))) ∧
      Tree.parse ((Presets.ofVocabulary names).get flavor) us = .ok u ∧ u.text = t.text ∧
      (flavor ≠ .template → compile (.ofVocabulary names) flavor content = .ok t →
        compile (.ofVocabulary names) flavor t.text = .ok u) := by
  obtain ⟨assigning, standard⟩ := Presets.exists_standard names flavor
  obtain ⟨l, k, scanned, within, chars, assigns, words⟩ := exists_phrase standard read parsed
  obtain ⟨k', read', parsed', respelled⟩ := k.exists_reparsed standard scanned within
  have reads : Token.read .expression t.text.toList = .ok k'.tokens := by
    rwa [text, String.toList_ofList, ← chars]
  refine ⟨k'.tokens, k'.tree _, reads, ?_, parsed', ?_, fun bare compiled => ?_⟩
  · rw [k.words_of_respelled k' respelled, words]
  · rw [respelled.text, text, text, chars]
  · obtain ⟨_, _, _, required⟩ := (compile_eq_ok_iff bare).mp compiled
    refine (compile_eq_ok_iff bare).mpr ⟨k'.tokens, reads, parsed', fun kind => ?_⟩
    exact respelled.isAssignment (assigns.trans (required kind))

/-- A sign joins its number, and a difference stays one; free text is enclosed. -/
theorem Tree.printed_tokens_of_signs :
    let name (s : String) : Word := .plain .identifier s
    let number (s : String) : Word := .plain .literal s
    (∃ ts t us, Token.read .expression "a - 5 * - 2;".toList = .ok ts ∧
      Tree.parse (.plain {}) ts = .ok t ∧ Token.read .expression t.text.toList = .ok us ∧
      Token.words .expression us =
        [name "a", .operator "-", number "5", .operator "*", number "-2"]) ∧
    ∃ ts t us, Token.read .template "a\x7b- 5\x7d".toList = .ok ts ∧
      Tree.parseTemplate (.template {}) ts = .ok t ∧
      Token.read .expression t.text.toList = .ok us ∧
      Token.words .expression us =
        [.operator "\x60", .free "a", .operator "\x7b", number "-5", .operator "\x7d",
          .operator "\x60"] := by
  intro name number
  have compute (flavor : Flavor) (content : String) (expected : List Word)
      (computed : ((Token.read flavor.mode content.toList).toOption.bind fun ts =>
        (flavor.parse ((Presets.ofVocabulary {}).get flavor) ts).toOption.map fun _ =>
          Word.joined false (flavor.enclose (Token.words flavor.mode (Token.body ts)))) =
        some expected) :
      ∃ ts t, Token.read flavor.mode content.toList = .ok ts ∧
        flavor.parse ((Presets.ofVocabulary {}).get flavor) ts = .ok t ∧
        Word.joined false (flavor.enclose (Token.words flavor.mode (Token.body ts))) =
          expected := by
    cases read : Token.read flavor.mode content.toList with
    | error e => simp [read, Except.toOption] at computed
    | ok ts =>
      cases parsed : flavor.parse ((Presets.ofVocabulary {}).get flavor) ts with
      | error e => simp [read, parsed, Except.toOption] at computed
      | ok t => exact ⟨ts, t, rfl, parsed, by simpa [read, parsed, Except.toOption] using computed⟩
  constructor
  · obtain ⟨ts, t, read, parsed, words⟩ := compute .plain "a - 5 * - 2;"
      [name "a", .operator "-", number "5", .operator "*", number "-2"] (by decide +kernel)
    obtain ⟨us, _, again, same, _⟩ := Tree.printed_tokens {} .plain read parsed
    exact ⟨ts, t, us, read, parsed, again, same.trans words⟩
  · obtain ⟨ts, t, read, parsed, words⟩ := compute .template "a\x7b- 5\x7d"
      [.operator "\x60", .free "a", .operator "\x7b", number "-5", .operator "\x7d",
        .operator "\x60"] (by decide +kernel)
    obtain ⟨us, _, again, same, _⟩ := Tree.printed_tokens {} .template read parsed
    exact ⟨ts, t, us, read, parsed, again, same.trans words⟩

end Formulae
