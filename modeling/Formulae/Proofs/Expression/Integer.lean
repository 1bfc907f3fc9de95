import Formulae.Proofs.Expression.Literal
import Formulae.Proofs.Number.Decimal
import Formulae.Proofs.Token.Failure

/-!
Integers as they are spelled.

The text of a word is one literal with this word. Wherever an operand starts, digits with a sign
or without one are read as the integer that they denote, or as no integer at all.
-/

namespace Formulae

open Formulae.Lexer

namespace Lexer

variable {mode : Mode} {source rest : List Char} {rs : List Reading} {st : State}

theorem Trace.exists_rest {cs middle : List Char} {rs' : List Reading} {st₁ st' : State}
    (trace : Trace st cs rs st₁ middle) (whole : Trace st cs rs' st' []) :
    ∃ rs'', rs' = rs ++ rs'' := by
  have reads := trace.readings_eq
  rw [readings_eq_ok_iff.mpr ⟨st', whole⟩] at reads
  cases behind : readings true st₁ 0 middle with
  | error e =>
    rw [behind] at reads
    cases reads
  | ok rs'' =>
    rw [behind] at reads
    cases reads
    exact ⟨rs'', rfl⟩

/-- What is read last of a front is a token of the text, at its place among the others. -/
theorem Trace.getElem?_of_concat {r : Reading} (trace : Trace { mode } source (rs ++ [r]) st rest)
    (means : r.token.kind.isIgnorable = false) :
    (∀ ts, Token.all mode source = .ok ts → ts[rs.length]? = some r.token) ∧
      ∀ ts, Token.read mode source = .ok ts → ts[(meaningful rs).length]? = some r.token := by
  constructor
  · intro ts read
    obtain ⟨rs', _, whole, rfl⟩ := Token.exists_trace_of_all read
    obtain ⟨rs'', rfl⟩ := trace.exists_rest whole
    simp
  · intro ts read
    obtain ⟨rs', _, whole, rfl⟩ := Token.exists_trace_of_read read
    obtain ⟨rs'', rfl⟩ := trace.exists_rest whole
    rw [List.append_assoc, meaningful, List.filter_append, ← meaningful, ← meaningful,
      List.singleton_append, meaningful_kept means]
    simp

/-- A numeral without a fraction is scanned to the integer that it denotes. -/
theorem scan_integer (n : Numeral) (integral : n.fraction = []) (expression : st.mode = .expression)
    (fresh : st.afterOperand = false) {c : Char} {cs : List Char} (spelled : n.chars = c :: cs)
    (ends : Ends rest) :
    st.scan c (cs ++ rest) = some (.literal cs.length
      ((Word.ofInt? (Decimal.denoted n.sign n.whole)).map .int)) := by
  have number := n.number_eq spelled ends
  rw [Numeral.value, if_pos integral, Decimal.integerValue_eq] at number
  simp only [State.scan, expression, fresh, Mode.rules, List.findSome?_cons, number]

end Lexer

namespace Numeral

/-- The token of a numeral at a place, as the literal of a word. -/
def token (n : Numeral) (position : Nat) (w : Int64) : Token :=
  ⟨.literal, ⟨position, position + Text.width n.chars⟩, String.ofList n.chars, some (.int w)⟩

theorem exists_chars (n : Numeral) : ∃ c cs, n.chars = c :: cs := by
  obtain ⟨c, cs, body, _⟩ := n.body_first
  apply List.exists_cons_of_ne_nil
  simp [chars, body]

theorem exists_only_of_word (w : Int64) :
    ∃ t, Token.Only .expression (toString w.toInt).toList t ∧ t.kind = .literal ∧
      t.value = some (.int w) := by
  obtain ⟨n, text, integral, denotes⟩ := Decimal.exists_numeral w.toInt
  obtain ⟨c, cs, spelled⟩ := n.exists_chars
  have ends : Ends [] := ⟨nofun, nofun⟩
  have scans : State.scan { mode := .expression } c (cs ++ []) = _ :=
    scan_integer n integral rfl rfl spelled ends
  rw [denotes, Word.ofInt?_toInt, List.append_nil] at scans
  have only := Token.only_of_scan scans rfl rfl rfl
  rw [← spelled, text] at only
  exact ⟨_, only, rfl, rfl⟩

/-- An integer in the text is read as this word. -/
theorem reads_word (n : Numeral) (integral : n.fraction = []) {mode : Mode}
    {source rest : List Char} {rs : List Reading} {st : State}
    (trace : Trace { mode } source rs st (n.chars ++ rest)) (expression : st.mode = .expression)
    (fresh : st.afterOperand = false) (ends : Ends rest) {w : Int64}
    (denotes : w.toInt = Decimal.denoted n.sign n.whole) :
    ∃ st', Trace { mode } source (rs ++ [⟨st, n.token st.position w⟩]) st' rest := by
  obtain ⟨c, cs, spelled⟩ := n.exists_chars
  have scans := scan_integer n integral expression fresh spelled ends
  rw [← denotes, Word.ofInt?_toInt] at scans
  have behind := Trace.cons scans rfl rfl (.nil _ rest)
  rw [spelled] at trace
  rw [token, spelled]
  exact ⟨_, trace.append behind⟩

theorem reads_outOfRange (n : Numeral) (integral : n.fraction = []) {mode : Mode}
    {source rest : List Char} {rs : List Reading} {st : State}
    (trace : Trace { mode } source rs st (n.chars ++ rest)) (expression : st.mode = .expression)
    (fresh : st.afterOperand = false) (ends : Ends rest)
    (tooLarge : Word.ofInt? (Decimal.denoted n.sign n.whole) = none) :
    Token.all mode source = .error (.outOfRange st.position (String.ofList n.chars)) := by
  obtain ⟨c, cs, spelled⟩ := n.exists_chars
  have scans := scan_integer n integral expression fresh spelled ends
  rw [tooLarge] at scans
  rw [spelled] at trace ⊢
  exact Token.all_eq_error_iff.mpr ⟨rs, st, _, trace, .outOfRange scans rfl rfl⟩

/-- The text of a word denotes the word. An integer where an operand starts, with neither a digit
nor a fraction behind it, is read as the word that denotes it, whatever its number of digits; if
no word does, the text has no tokens, and the integer is quoted with its place. -/
theorem numerals_exact :
    (∀ w : Int64,
      (∃ t, Token.Only .expression (toString w.toInt).toList t ∧ t.kind = .literal ∧
        t.value = some (.int w)) ∧
      ∀ presets flavor, flavor ≠ .template → flavor ≠ .assignment →
        let e := Expression.compile presets flavor (toString w.toInt)
        e.isValid = true ∧ ∀ host world, e.execute host world = .ok (.int w) world) ∧
    ∀ mode source rs st (n : Numeral) rest, n.fraction = [] →
      Trace { mode } source rs st (n.chars ++ rest) → st.mode = .expression →
      st.afterOperand = false → Ends rest →
      let i := Decimal.denoted n.sign n.whole
      let text := String.ofList n.chars
      (-2 ^ 63 ≤ i ∧ i < 2 ^ 63 → ∃ w : Int64, w.toInt = i ∧
        let t := n.token st.position w
        (∃ st', Trace { mode } source (rs ++ [⟨st, t⟩]) st' rest) ∧
        (∀ ts, Token.all mode source = .ok ts → ts[rs.length]? = some t) ∧
        ∀ ts, Token.read mode source = .ok ts → ts[(meaningful rs).length]? = some t) ∧
      (¬ (-2 ^ 63 ≤ i ∧ i < 2 ^ 63) →
        Token.all mode source = .error (.outOfRange st.position text) ∧
        Token.read mode source = .error (.outOfRange st.position text)) := by
  constructor
  · intro w
    obtain ⟨t, only, isLiteral, value⟩ := exists_only_of_word w
    exact ⟨⟨t, only, isLiteral, value⟩, fun presets flavor bare free =>
      Expression.execute_of_only presets bare free only isLiteral value⟩
  · intro mode source rs st n rest integral trace expression fresh ends i text
    have limit : Word.bound = 2 ^ 63 := rfl
    constructor
    · intro range
      have found : Word.ofInt? i = some (Int64.ofInt i) := by
        rw [Word.ofInt?, limit, if_pos range]
      have denotes := Word.toInt_of_ofInt? found
      obtain ⟨st', read⟩ := n.reads_word integral trace expression fresh ends denotes
      exact ⟨_, denotes, ⟨st', read⟩, read.getElem?_of_concat rfl⟩
    · intro outside
      have tooLarge : Word.ofInt? i = none := by rw [Word.ofInt?, limit, if_neg outside]
      have fails := n.reads_outOfRange integral trace expression fresh ends tooLarge
      exact ⟨fails, Token.read_eq_error_iff.mpr fails⟩

/-- The least word, and integers in a template with a letter of two bytes in front: one with zeros
at its start, and one that is too large. -/
theorem numerals_exact_of_limits :
    let e := Expression.compile (.ofVocabulary {}) .plain "-9223372036854775808"
    (e.isValid = true ∧ ∀ host world, e.execute host world = .ok (.int Int64.minValue) world) ∧
      (∃ w : Int64, w.toInt = 7 ∧ ∀ ts, Token.read .template "é\x7b+007\x7d".toList = .ok ts →
        ts[2]? = some ⟨.literal, ⟨3, 7⟩, "+007", some (.int w)⟩) ∧
      Token.read .template "é\x7b9223372036854775808\x7d".toList =
        .error (.outOfRange 3 "9223372036854775808") := by
  intro e
  have front (c : Char) (cs : List Char) : ∃ r r' st, st.mode = .expression ∧
      st.afterOperand = false ∧ st.position = 3 ∧
      Trace { mode := .template } ('é' :: '\x7b' :: c :: cs) [r, r'] st (c :: cs) ∧
      meaningful [r, r'] = [r, r'] :=
    ⟨_, _, _, rfl, rfl, rfl, @Trace.cons _ _ 'é' [] ('\x7b' :: c :: cs) _ _ _ rfl rfl rfl
      (@Trace.cons _ _ '\x7b' [] (c :: cs) _ _ _ rfl rfl rfl (.nil _ _)), rfl⟩
  have ends : Ends ['\x7d'] := by constructor <;> simp
  obtain ⟨words, places⟩ := numerals_exact
  refine ⟨(words Int64.minValue).2 (.ofVocabulary {}) .plain (by decide) (by decide), ?_, ?_⟩
  · let n : Numeral :=
      ⟨['+'], ['0', '0', '7'], [], by simp, List.all_eq_true.mp (by rfl), by simp, by simp⟩
    have seven : Decimal.denoted n.sign n.whole = 7 := by rfl
    obtain ⟨r, r', st, expression, fresh, place, trace, kept⟩ := front '+' "007\x7d".toList
    obtain ⟨inRange, _⟩ := places _ _ _ st n ['\x7d'] rfl trace expression fresh ends
    obtain ⟨w, denotes, _, _, read⟩ := inRange (by rw [seven]; decide)
    rw [kept, Numeral.token, place] at read
    exact ⟨w, denotes.trans seven, read⟩
  · let n : Numeral :=
      ⟨[], "9223372036854775808".toList, [], by simp, List.all_eq_true.mp (by rfl), by simp,
        by simp⟩
    have large : Decimal.denoted n.sign n.whole = 2 ^ 63 := by rfl
    obtain ⟨r, r', st, expression, fresh, place, trace, _⟩ :=
      front '9' "223372036854775808\x7d".toList
    obtain ⟨_, refused⟩ := places _ _ _ st n ['\x7d'] rfl trace expression fresh ends
    rw [place] at refused
    exact (refused (by rw [large]; decide)).2

end Numeral

end Formulae
