import Formulae.Expression.Template
import Formulae.Proofs.Spelling.RoundTrip
import Formulae.Proofs.Token.Trace

/-!
Texts that are one literal.

A text of one lexeme has one token. If the token is a literal, the text is an expression that
gives the value of the literal, whatever the dialect: its tables are about names and operators.
-/

namespace Formulae

open Formulae.Lexer Formulae.Parser

variable {mode : Mode} {text : List Char}

namespace Lexer.Trace

variable {rs : List Reading} {st : State}

theorem all_eq (trace : Trace { mode } text rs st []) :
    Token.all mode text = .ok (rs.map Reading.token) := by
  rw [Token.all, readings_eq_ok_iff.mpr ⟨st, trace⟩]
  rfl

theorem read_eq (trace : Trace { mode } text rs st []) :
    Token.read mode text = .ok ((meaningful rs).map Reading.token) := by
  rw [Token.read, readings_false_eq_ok_iff.mpr ⟨rs, st, trace, rfl⟩]
  rfl

end Lexer.Trace

/-- The only token of a text, whether or not comments and white space are kept. -/
structure Token.Only (mode : Mode) (text : List Char) (t : Token) : Prop where
  all : Token.all mode text = .ok [t]
  read : Token.read mode text = .ok [t]

theorem Token.only_of_scan {c : Char} {cs : List Char} {lexeme : Lexeme}
    (scans : State.scan { mode } c cs = some lexeme) (whole : cs.length = lexeme.extra)
    (inRange : lexeme.outOfRange = false) (means : lexeme.kind.isIgnorable = false) :
    Token.Only mode (c :: cs) (State.token { mode } lexeme (c :: cs)) := by
  have trace : Trace { mode } (c :: cs) [⟨{ mode }, State.token { mode } lexeme (c :: cs)⟩]
      (State.after { mode } lexeme (Text.width (c :: cs))) [] := by
    rw [← List.append_nil cs] at scans
    simpa using Trace.cons scans whole inRange (.nil _ [])
  refine ⟨trace.all_eq, ?_⟩
  rw [trace.read_eq, meaningful_kept means]
  rfl

variable {t : Token}

theorem Token.Only.ne_nil (only : Token.Only mode text t) : text ≠ [] := by
  rintro rfl
  cases only.all

theorem Parser.start_literal (isLiteral : t.kind = .literal) :
    Cursor.start [t] = ⟨⟨0, 0⟩, [t]⟩ := by
  simp [Cursor.start, Token.significant, isLiteral, TokenKind.isIgnorable]

theorem Tree.parse_literal (d : Dialect) (isLiteral : t.kind = .literal) :
    Tree.parse d [t] = .ok (.literal (.over t.span []) t.text (t.value.getD .empty)) := by
  have reads : expression d depthLimit depthLimit Power.loosest ⟨⟨0, 0⟩, [t]⟩ =
      .ok (.literal (.over t.span []) t.text (t.value.getD .empty), ⟨t.span, []⟩) := by
    change expression d depthLimit (255 + 1) _ _ = _
    rw [expression]
    simp only [operand, isLiteral, Cursor.next, bind, Except.bind]
    rfl
  rw [Tree.parse, Tree.parseWithin, start_literal isLiteral]
  dsimp only
  rw [if_neg (by simp), reads]
  rfl

theorem Tree.parseTemplate_text (d : Dialect) {s : String} (isLiteral : t.kind = .literal)
    (value : t.value = some (.string s)) :
    ∃ m, Tree.parseTemplate d [t] = .ok (.template m [.text s]) := by
  have reads (inner : Nat → Step Tree) :
      allParts inner 1 ⟨⟨0, 0⟩, [t]⟩ = .ok ([.text s], ⟨t.span, []⟩) := by
    rw [allParts]
    simp only [part, isLiteral, value, Cursor.next, bind, Except.bind]
    rfl
  rw [Tree.parseTemplate, Tree.parseTemplateWithin, start_literal isLiteral]
  refine ⟨.over (t.span.merge t.span) [], ?_⟩
  simp only [List.length_singleton, reads, bind, Except.bind]
  exact limited_eq_ok_iff.mpr ⟨Nat.le_add_right 1 255, rfl⟩

namespace Expression

variable {content : String} {v : Value}

/-- A text whose only token is a literal is an expression, and it gives the value of the literal
in every world, which it leaves as it is. -/
theorem execute_of_only (presets : Presets) {flavor : Flavor} (bare : flavor ≠ .template)
    (free : flavor ≠ .assignment) (only : Token.Only .expression content.toList t)
    (isLiteral : t.kind = .literal) (value : t.value = some v) :
    (compile presets flavor content).isValid = true ∧
      ∀ host w, (compile presets flavor content).execute host w = .ok v w := by
  have solid : content ≠ "" := by
    rintro rfl
    exact only.ne_nil rfl
  have ready : (compile presets flavor content).outcome =
      .ready (.literal (.over t.span []) t.text v) := by
    rw [compile, Outcome.of_eq_ready_iff, Tree.compile_eq_ok_iff bare]
    refine ⟨solid, [t], only.read, ?_, fun assigning => absurd assigning free⟩
    rw [Tree.parse_literal _ isLiteral, value]
    rfl
  constructor
  · rw [isValid, ready]
    rfl
  · intro host w
    rw [execute_of_ready ready]
    split
    · rfl
    · rfl

end Expression

end Formulae
