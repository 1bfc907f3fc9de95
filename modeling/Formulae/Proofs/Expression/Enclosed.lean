import Formulae.Expression.Template
import Formulae.Proofs.Grammar.Quotation
import Formulae.Proofs.Token.Agreement
import Formulae.Proofs.Token.Extension
import Formulae.Proofs.Tree.Shape

/-!
Bare templates and templates in backticks.

A text that compiles as a bare template is an expression between backticks, with the same
fragments, unless it ends in a backslash that hides the backtick behind it.
-/

namespace Formulae

open Formulae.Lexer Formulae.Parser

theorem exists_last_of_forall₂ {α β : Type} {R : α → β → Prop} (front : List α) {a : α}
    {ys : List β} (related : List.Forall₂ R (front ++ [a]) ys) :
    ∃ others b, ys = others ++ [b] ∧ R a b := by
  have reversed := List.forall₂_reverse_iff.mpr related
  rw [List.reverse_append, List.reverse_singleton, List.singleton_append] at reversed
  obtain ⟨b, others, first, _, same⟩ := List.forall₂_cons_left_iff.mp reversed
  exact ⟨others.reverse, b, by rw [← List.reverse_reverse ys, same, List.reverse_cons], first⟩

/-- The backtick that opens a template at the start of a text. -/
def Token.opening : Token := ⟨.operator, ⟨0, 1⟩, "\x60", none⟩

namespace Lexer

variable {body : List Char} {rs : List Reading} {st : State}

namespace Trace

/-- Behind a backtick the body of a template has the same tokens, at other places. -/
theorem exists_opened (trace : Trace { mode := .template } body rs st []) :
    ∃ ts, Token.read .expression ('\x60' :: body) = .ok ts ∧
      List.Forall₂ Token.Same (.opening :: (meaningful rs).map Reading.token) ts := by
  have whole := trace.text_eq
  rw [List.append_nil] at whole
  have scans : State.scan { mode := .expression } '\x60' ([] ++ body) =
      some (.marker .template false) := by
    cases body <;> rfl
  have inside : Rereads (State.after { mode := .expression } (.marker .template false) 1) body
      ((meaningful rs).map Reading.token) := by
    rw [whole]
    exact trace.rereads rfl (.same st.mode rs)
  obtain ⟨ts, read, same⟩ := Rereads.token scans rfl rfl rfl inside 0
  exact ⟨ts, by rwa [read_eq_tokens], same⟩

/-- A backtick that is not hidden is read as such. -/
theorem exists_closed (trace : Trace { mode := .template } body rs st [])
    (template : st.mode = .template) (bare : Text.Free.hides body = false) :
    ∃ (c : Token) (st' : State), c.isOperator "\x60" = true ∧
      Trace { mode := .template } (body ++ ['\x60']) (rs ++ [⟨st, c⟩]) st' [] := by
  have scans : st.scan '\x60' ([] ++ []) = some (.marker .expression true) := by
    simp only [State.scan, template]
    rfl
  exact ⟨_, _, rfl, (trace.close template bare []).append (.cons scans rfl rfl (.nil _ []))⟩

end Trace

end Lexer

namespace Fragments

variable {assigning : Bool} {d : Dialect} {body : List Char} {rs : List Reading} {st : State}
  {span : Span}

/-- A text whose tokens are fragments ends in the template. -/
theorem mode_of_trace (fragments : Fragments assigning)
    (trace : Trace { mode := .template } body rs st [])
    (derived : fragments.tokens = (meaningful rs).map Reading.token) : st.mode = .template := by
  have inside := fragments.agree.eq_foldl
  rw [fragments.map_uses, derived] at inside
  exact congrArg Context.mode (trace.context_eq.trans inside.symm)

/-- Between backticks the text is a template with the same parts, up to places. -/
theorem exists_quoted (standard : d.Standard assigning) (fragments : Fragments assigning)
    (trace : Trace { mode := .template } body rs st [])
    (derived : fragments.tokens = (meaningful rs).map Reading.token)
    (deep : (Mark.over span (Part.embeds (fragments.parts d))).depth ≤ Tree.depthLimit)
    (bare : Text.Free.hides body = false) :
    ∃ ts u, Token.read .expression ('\x60' :: (body ++ ['\x60'])) = .ok ts ∧
      Tree.parse d ts = .ok u ∧
      (Tree.template (.over span (Part.embeds (fragments.parts d))) (fragments.parts d)).SameShape
        u := by
  have template := fragments.mode_of_trace trace derived
  obtain ⟨c, st', isClose, whole⟩ := trace.exists_closed template bare
  obtain ⟨ts, read, same⟩ := whole.exists_opened
  have means : c.kind.isIgnorable = false := by
    rw [(Token.isOperator_iff.mp isClose).1]
    rfl
  have kept := significant_meaningful (rs ++ [⟨st, c⟩])
  rw [meaningful_concat rs means, ← derived] at kept same
  have enclosed : Token.significant (.opening :: (fragments.tokens ++ [c])) =
      .opening :: (fragments.tokens ++ [c]) := congrArg (List.cons Token.opening) kept
  have parsed := fragments.parseWithin_eq_template standard rfl isClose deep enclosed
  obtain ⟨u, parsed', shape⟩ := exists_ok_of_unplaced (Tree.parse_same d same).1 parsed
  exact ⟨ts, u, read, parsed', shape⟩

/-- With the second backtick hidden, the text is a template without an end: the backtick is
free text, behind which nothing is left. -/
theorem exists_unclosed (standard : d.Standard assigning) (fragments : Fragments assigning)
    (trace : Trace { mode := .template } body rs st [])
    (derived : fragments.tokens = (meaningful rs).map Reading.token)
    (deep : (Mark.over span (Part.embeds (fragments.parts d))).depth ≤ Tree.depthLimit)
    (hidden : Text.Free.hides body = true) :
    ∃ ts, Token.read .expression ('\x60' :: (body ++ ['\x60'])) = .ok ts ∧
      (∃ front last text, ts = front ++ [last] ∧ last.kind = .literal ∧
        last.value = some (.string (text ++ "\x60"))) ∧
      Tree.parse d ts = .error .unexpectedEnd := by
  have template := fragments.mode_of_trace trace derived
  obtain ⟨rs, r, r', st', rfl, wasText, isText, ⟨text, value⟩, whole⟩ := trace.hide template hidden
  obtain ⟨ts, read, same⟩ := whole.exists_opened
  have meant : r.token.kind.isIgnorable = false := by
    rw [wasText]
    rfl
  have means : r'.token.kind.isIgnorable = false := by
    rw [isText]
    rfl
  have kept := significant_meaningful (rs ++ [r'])
  rw [meaningful_concat rs meant] at derived
  obtain ⟨fragments', tokens, embeds⟩ := fragments.exists_retexted (d := d) derived wasText isText
  rw [meaningful_concat rs means] at kept same
  obtain ⟨front, last, rfl, sameLast⟩ := exists_last_of_forall₂ (Token.opening :: _) same
  rw [← tokens] at kept same
  have enclosed : Token.significant (.opening :: fragments'.tokens) =
      .opening :: fragments'.tokens := congrArg (List.cons Token.opening) kept
  have ends := fragments'.parseWithin_eq_unexpectedEnd standard rfl (embeds ▸ deep) enclosed
  exact ⟨_, read, ⟨front, last, text, rfl, sameLast.kind.trans isText, sameLast.value.trans value⟩,
    eq_unexpectedEnd_of_unplaced (Tree.parse_same d same).1 ends⟩

end Fragments

namespace Template

theorem render_of_ready {template : Template} {t : Tree}
    (flavor : template.inner.flavor = .template) (ready : template.inner.outcome = .ready t)
    (host : Host) :
    template.render host = do return (← t.eval host).text := by
  rw [render, Expression.execute_of_ready ready, flavor]
  rfl

/-- A valid template means the same in backticks, unless it ends in a backslash that hides the
second backtick. With an even number of backslashes at its end, the text in backticks is read and
parsed to a template of the same shape, so that both are rendered to the same text or fail with
the same error, in every world. With an odd number it is read, the second backtick as the end
of free text, and the parser reports the end of the text. -/
theorem enclosed_agrees (names : Vocabulary) (content : String)
    (valid : (compile (.ofVocabulary names) content).inner.isValid = true) :
    let template := compile (.ofVocabulary names) content
    let dialect := (Presets.ofVocabulary names).get .template
    let backslashes := content.toList.rtakeWhile (· == '\\')
    ∃ t ts, template.inner.outcome = .ready t ∧
      Token.read .expression ("\x60" ++ content ++ "\x60").toList = .ok ts ∧
      (backslashes.length % 2 = 0 → ∃ u, Tree.parse dialect ts = .ok u ∧
        (∃ m ps m' ps', t = .template m ps ∧ u = .template m' ps') ∧ t.SameShape u ∧
        ∀ host, template.render host = do return (← u.eval host).text) ∧
      (backslashes.length % 2 = 1 →
        (∃ front last text, ts = front ++ [last] ∧ last.kind = .literal ∧
          last.value = some (.string (text ++ "\x60"))) ∧
        Tree.parse dialect ts = .error .unexpectedEnd) := by
  intro template dialect backslashes
  obtain ⟨t, ready⟩ : ∃ t, template.inner.outcome = .ready t := by
    cases outcome : template.inner.outcome with
    | ready t => exact ⟨t, rfl⟩
    | blank | failed =>
      rw [Expression.isValid, outcome] at valid
      cases valid
  obtain ⟨assigning, standard⟩ := Presets.exists_standard names .template
  obtain ⟨_, compiled⟩ := Outcome.of_eq_ready_iff.mp ready
  obtain ⟨us, read, parsed, _⟩ := Tree.compile_eq_ok_iff_parse.mp compiled
  obtain ⟨fragments, span, tokens, rfl, deep⟩ := exists_fragments standard parsed
  obtain ⟨rs, st, trace, rfl⟩ := Token.exists_trace_of_read read
  rw [significant_meaningful] at tokens
  have spelled : ("\x60" ++ content ++ "\x60").toList = '\x60' :: (content.toList ++ ['\x60']) := by
    simp
  rw [spelled]
  cases bare : Text.Free.hides content.toList with
  | false =>
    obtain ⟨ts, u, read', parsed', shape⟩ := fragments.exists_quoted standard trace tokens deep bare
    obtain ⟨m', ps', made⟩ := shape.exists_template
    refine ⟨_, ts, ready, read', fun _ => ⟨u, parsed', ⟨_, _, m', ps', rfl, made⟩, shape, ?_⟩, ?_⟩
    · intro host
      rw [render_of_ready rfl ready, shape.eval_eq]
    · intro odd
      rw [(Text.Free.hides_iff content.toList).mpr odd] at bare
      cases bare
  | true =>
    obtain ⟨ts, read', last, ends⟩ := fragments.exists_unclosed standard trace tokens deep bare
    refine ⟨_, ts, ready, read', fun even => ?_, fun _ => ⟨last, ends⟩⟩
    cases even.symm.trans ((Text.Free.hides_iff content.toList).mp bare)

/-- A template that ends in an escaped backslash, with a template in the phrase that it embeds. -/
theorem enclosed_agrees_of_nested :
    let template := compile (.ofVocabulary {}) "a\x7b\x60b\x60 + c\x7d\\\\"
    template.inner.isValid = true ∧ ∃ t ts u, template.inner.outcome = .ready t ∧
      Token.read .expression "\x60a\x7b\x60b\x60 + c\x7d\\\\\x60".toList = .ok ts ∧
      Tree.parse (.template {}) ts = .ok u ∧ t.SameShape u ∧
      ∀ host, template.render host = do return (← u.eval host).text := by
  intro template
  have valid : template.inner.isValid = true := by decide +kernel
  obtain ⟨t, ts, ready, read, agrees, _⟩ :=
    enclosed_agrees {} "a\x7b\x60b\x60 + c\x7d\\\\" valid
  obtain ⟨u, parsed, _, shape, renders⟩ := agrees (by decide +kernel)
  exact ⟨valid, t, ts, u, ready, read, parsed, shape, renders⟩

/-- A backslash is a template, and it is none in backticks. -/
theorem backslash_unclosed :
    (compile (.ofVocabulary {}) "\\").inner.isValid = true ∧
      ∃ ts, Token.read .expression "\x60\\\x60".toList = .ok ts ∧
        Tree.parse ((Presets.ofVocabulary {}).get .template) ts = .error .unexpectedEnd := by
  exact ⟨rfl, _, rfl, rfl⟩

end Template

end Formulae
