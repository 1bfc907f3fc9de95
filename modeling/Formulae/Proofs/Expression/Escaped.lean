import Mathlib.Data.List.Chain
import Formulae.Proofs.Expression.Enclosed
import Formulae.Proofs.Expression.Literal

/-!
The free text of templates, escaped.

Every text has an escaped form, which as a template renders to the text. The texts of a template
are escaped and its phrases printed to the body of a template with the same texts at the same
places.
-/

namespace Formulae

open Formulae.Lexer

/-- The free text of a piece of a template. -/
def Part.text? : Part → Option String
  | .text s => some s
  | .embed _ => none

/-- No text is empty, and no two texts stand side by side. -/
structure Part.Separate (ps : List Part) : Prop where
  filled : some "" ∉ ps.map Part.text?
  apart : (ps.map Part.text?).IsChain fun a b => a = none ∨ b = none

theorem Part.Separate.of_texts_eq {ps qs : List Part} (separate : Part.Separate ps)
    (same : qs.map Part.text? = ps.map Part.text?) : Part.Separate qs := by
  constructor
  · rw [same]
    exact separate.filled
  · rw [same]
    exact separate.apart

theorem Part.AllRespelled.texts_eq {ps qs : List Part} (respelled : Part.AllRespelled ps qs) :
    qs.map Part.text? = ps.map Part.text? := by
  cases respelled with
  | nil => rfl
  | text others => exact congrArg (List.cons _) others.texts_eq
  | embed _ others => exact congrArg (List.cons none) others.texts_eq

theorem Part.AllRespelled.embeds_eq {ps qs : List Part} (respelled : Part.AllRespelled ps qs) :
    (Part.embeds qs).map Tree.text = (Part.embeds ps).map Tree.text := by
  cases respelled with
  | nil => rfl
  | text others => exact others.embeds_eq
  | embed first others => exact congrArg₂ List.cons first.text others.embeds_eq

namespace Fragments

variable {assigning : Bool} {d : Dialect}

/-- Behind a text comes a phrase or nothing. -/
theorem head_of_opensWithText {fragments : Fragments assigning}
    (other : fragments.opensWithText = false) :
    ∀ a ∈ ((fragments.parts d).map Part.text?).head?, a = none := by
  cases fragments with
  | nil => simp [parts]
  | text => cases other
  | embed => simp [parts, Part.text?]

theorem separate {fragments : Fragments assigning} (scanned : fragments.Scanned) :
    Part.Separate (fragments.parts d) := by
  cases fragments with
  | nil => exact ⟨by simp [parts], by simp [parts]⟩
  | text t isText rest =>
    obtain ⟨text, other, behind⟩ := scanned
    obtain ⟨s, filled, value⟩ := text.exists_text isText
    have others := separate behind
    have solid : t.content ≠ "" := by
      simp [Token.content, value, filled]
    constructor
    · simp only [parts, List.map_cons, List.mem_cons, not_or]
      exact ⟨fun same => solid (Option.some.inj same).symm, others.filled⟩
    · rw [parts, List.map_cons, List.isChain_cons]
      exact ⟨fun a member => .inr (head_of_opensWithText other a member), others.apart⟩
  | embed _ _ inner _ _ rest =>
    have others := separate scanned.2
    constructor
    · simp only [parts, List.map_cons, List.mem_cons, not_or]
      exact ⟨Option.some_ne_none "", others.filled⟩
    · rw [parts, List.map_cons, List.isChain_cons]
      exact ⟨fun _ _ => .inl rfl, others.apart⟩

end Fragments

namespace Template

theorem exists_only_of_encode {s : String} (filled : s ≠ "") :
    ∃ t, Token.Only .template (Text.Free.encode s.toList) t ∧ t.kind = .literal ∧
      t.value = some (.string s) := by
  have solid : s.toList ≠ [] := by simpa using filled
  have stops : Text.Free.Stops [] := rfl
  obtain ⟨d, ds, spelled, scans⟩ := exists_scan_of_encode 0 solid stops
  rw [List.append_nil] at scans
  rw [spelled]
  refine ⟨_, Token.only_of_scan scans rfl rfl rfl, rfl, ?_⟩
  rw [State.token, String.ofList_toList]

theorem render_encode (presets : Presets) (s : String) (host : Host) (w : World) :
    (compile presets (String.ofList (Text.Free.encode s.toList))).render host w = .ok s w := by
  by_cases filled : s = ""
  · subst filled
    rfl
  · obtain ⟨t, only, isLiteral, value⟩ := exists_only_of_encode filled
    obtain ⟨m, parsed⟩ := Tree.parseTemplate_text (presets.get .template) isLiteral value
    have ready : (compile presets (String.ofList (Text.Free.encode s.toList))).inner.outcome =
        .ready (.template m [.text s]) := by
      rw [compile, Expression.compile, Outcome.of_eq_ready_iff, Tree.compile_eq_ok_iff_parse,
        String.toList_ofList]
      refine ⟨fun blank => only.ne_nil ?_, [t], only.read, parsed,
        fun assigning => by cases assigning⟩
      rw [← String.toList_ofList (l := Text.Free.encode s.toList), blank]
      rfl
    rw [render_of_ready rfl ready, Tree.eval, Tree.evalParts, Tree.evalParts, pure_bind, pure_bind,
      pure_bind, String.append_empty]
    rfl

/-- The texts of a bare template, escaped, and the text of its phrases are the body of a
template. -/
theorem exists_reread (names : Vocabulary) (flavor : Flavor) {source : List Char}
    {ts : List Token} {t : Tree} (read : Token.read .template source = .ok ts)
    (parsed : Tree.parseTemplate ((Presets.ofVocabulary names).get flavor) ts = .ok t) :
    ∃ m ps us m' qs, t = .template m ps ∧ Part.Separate ps ∧
      Token.read .expression ('\x60' :: Tree.partChars ps ++ ['\x60']) = .ok us ∧
      Tree.parse ((Presets.ofVocabulary names).get flavor) us = .ok (.template m' qs) ∧
      Part.Separate qs ∧ qs.map Part.text? = ps.map Part.text? ∧
      (Part.embeds qs).map Tree.text = (Part.embeds ps).map Tree.text := by
  obtain ⟨assigning, standard⟩ := Presets.exists_standard names flavor
  obtain ⟨fragments, span, tokens, rfl, within⟩ := exists_fragments standard parsed
  have scanned := fragments.scanned_of_read read tokens
  obtain ⟨k, read', parsed', respelled⟩ :=
    fragments.quoted.exists_reparsed standard scanned within
  have separate := fragments.separate (d := (Presets.ofVocabulary names).get flavor) scanned
  generalize k.tree _ = u at parsed' respelled
  cases respelled with
  | template parts =>
    exact ⟨_, _, k.tokens, _, _, rfl, separate, read', parsed',
      separate.of_texts_eq parts.texts_eq, parts.texts_eq, parts.embeds_eq⟩

/-- A text, escaped, is the free text of a template by itself: no token if it is empty, and one that
stands for it if not. As a template it renders to the text. The other way round, the texts of a
bare template, escaped, and the text of its phrases are, between backticks, an expression with
these texts at their places. No text is empty, and none follows another. -/
theorem escaped_round_trip :
    (∀ s : String, let escaped := Text.Free.encode s.toList
      (s = "" → Token.all .template escaped = .ok [] ∧ Token.read .template escaped = .ok []) ∧
      (s ≠ "" → ∃ t, Token.Only .template escaped t ∧ t.kind = .literal ∧
        t.value = some (.string s)) ∧
      ∀ presets host w, (compile presets (String.ofList escaped)).render host w = .ok s w) ∧
    ∀ names flavor source ts t, Token.read .template source = .ok ts →
      let dialect := (Presets.ofVocabulary names).get flavor
      Tree.parseTemplate dialect ts = .ok t →
      ∃ m ps us m' qs, t = .template m ps ∧ Part.Separate ps ∧
        Token.read .expression ('\x60' :: Tree.partChars ps ++ ['\x60']) = .ok us ∧
        Tree.parse dialect us = .ok (.template m' qs) ∧
        Part.Separate qs ∧ qs.map Part.text? = ps.map Part.text? ∧
        (Part.embeds qs).map Tree.text = (Part.embeds ps).map Tree.text := by
  refine ⟨fun s => ⟨?_, exists_only_of_encode, fun presets => render_encode presets s⟩, ?_⟩
  · rintro rfl
    exact ⟨rfl, rfl⟩
  · intro names flavor source ts t read dialect parsed
    exact exists_reread names flavor read parsed

/-- A text with each of the marks, and a template with a backslash that hides nothing, a template in
a phrase and a hidden backtick at its end. -/
theorem escaped_round_trip_of_marks :
    let source := "a\\b\x7b\x60c\x60\x7d\\\x60".toList
    (∃ t, Token.Only .template "\\\\n\\\x60é\\\x7b\\\\".toList t ∧
      t.value = some (.string "\\n\x60é\x7b\\")) ∧
    ∃ ts m ps us m' qs, Token.read .template source = .ok ts ∧
      Tree.parseTemplate (.template {}) ts = .ok (.template m ps) ∧
      Token.read .expression ('\x60' :: Tree.partChars ps ++ ['\x60']) = .ok us ∧
      Tree.parse (.template {}) us = .ok (.template m' qs) ∧
      qs.map Part.text? = [some "a\\b", none, some "\x60"] := by
  intro source
  obtain ⟨tokenizes, rereads⟩ := escaped_round_trip
  constructor
  · obtain ⟨t, only, _, value⟩ := (tokenizes "\\n\x60é\x7b\\").2.1 (by decide)
    exact ⟨t, only, value⟩
  · obtain ⟨ts, read, parsed⟩ : ∃ ts, Token.read .template source = .ok ts ∧
        Tree.parseTemplate (.template {}) ts = .ok (.template ⟨⟨0, 10⟩, 2⟩
          [.text "a\\b", .embed (.template ⟨⟨4, 7⟩, 1⟩ [.text "c"]), .text "\x60"]) :=
      ⟨[⟨.literal, ⟨0, 3⟩, "a\\b", some (.string "a\\b")⟩, ⟨.operator, ⟨3, 4⟩, "\x7b", none⟩,
        ⟨.operator, ⟨4, 5⟩, "\x60", none⟩, ⟨.literal, ⟨5, 6⟩, "c", some (.string "c")⟩,
        ⟨.operator, ⟨6, 7⟩, "\x60", none⟩, ⟨.operator, ⟨7, 8⟩, "\x7d", none⟩,
        ⟨.literal, ⟨8, 10⟩, "\\\x60", some (.string "\x60")⟩], by rfl, by rfl⟩
    obtain ⟨_, _, us, m, qs, ⟨⟩, _, read', parsed', _, texts, _⟩ :=
      rereads {} .template source ts _ read parsed
    exact ⟨ts, _, _, us, m, qs, read, parsed, read', parsed', texts⟩

end Template

end Formulae
