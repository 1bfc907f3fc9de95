import Formulae.Proofs.Grammar.Unambiguity
import Formulae.Proofs.Spelling.Respelled
import Formulae.Proofs.Spelling.Scanned

/-!
How the texts of phrases start.
-/

namespace Formulae

open Formulae.Lexer Formulae.Lexer.State

variable {assigning : Bool} {d : Dialect}

/-- The text starts with something that a space or another operator does not run into.
A digit or a point belongs to the number at the front of an operand. -/
def Tree.Opens (t : Tree) : Prop :=
  ∃ c cs, t.chars = c :: cs ∧ Text.isBlank c = false ∧ c ≠ '=' ∧
    (Level.unary.rank ≤ t.level.rank → c.isDigit = true ∨ c = '.' → t.numeralHead = true)

/-- What starts a phrase starts the longer phrases that it stands at the front of. -/
theorem Tree.Opens.extend {t u : Tree} (opens : t.Opens)
    (longer : ∃ more, u.chars = t.chars ++ more)
    (head : Level.unary.rank ≤ u.level.rank →
      Level.unary.rank ≤ t.level.rank ∧ u.numeralHead = t.numeralHead) : u.Opens := by
  obtain ⟨c, cs, spelled, solid, equals, number⟩ := opens
  obtain ⟨more, longer⟩ := longer
  refine ⟨c, cs ++ more, by rw [longer, spelled]; rfl, solid, equals, fun tight first => ?_⟩
  obtain ⟨inner, same⟩ := head tight
  rw [same]
  exact number inner first

theorem Tree.between_eq (left : List Char) (symbol : String) (right : List Char) :
    between left symbol right = left ++ (' ' :: (symbol.toList ++ [' ']) ++ right) := by
  simp [between]

theorem Tree.prepend_eq (symbol operand : List Char) :
    ∃ gap, prepend symbol operand = symbol ++ gap ++ operand := by
  unfold prepend
  split
  · exact ⟨[' '], by simp⟩
  · exact ⟨[' '], by simp⟩
  · exact ⟨[], by simp⟩

theorem Parser.chars_resolve (d : Dialect) (s : String) (span : Span) :
    (resolve d s span).chars = s.toList := by
  unfold resolve
  dsimp only
  split
  · rfl
  · split <;> rfl

theorem level_lt_unary (op : BinaryOp) : ¬ Level.unary.rank ≤ op.level.rank := by
  cases op <;> decide

theorem Derivation.unary_le_level {l : Level} (k : Derivation assigning l)
    (tight : Level.unary.rank ≤ l.rank) : Level.unary.rank ≤ (k.tree d).level.rank :=
  tight.trans k.rank_le_level

theorem UnaryOp.symbol_first (op : UnaryOp) :
    ∃ c cs, op.symbol.toList = c :: cs ∧ (c = '-' ∨ c = '!' ∨ c = '+') := by
  match op with
  | .negate => exact ⟨_, _, rfl, .inl rfl⟩
  | .invert => exact ⟨_, _, rfl, .inr (.inl rfl)⟩
  | .step .increment => exact ⟨_, _, rfl, .inr (.inr rfl)⟩
  | .step .decrement => exact ⟨_, _, rfl, .inl rfl⟩

theorem opens_unary {mark : Mark} {op : UnaryOp} {operand : Tree} :
    (Tree.unary mark op operand).Opens := by
  obtain ⟨c, cs, spelled, first⟩ := op.symbol_first
  obtain ⟨gap, text⟩ := Tree.prepend_eq op.symbol.toList operand.chars
  refine ⟨c, cs ++ gap ++ operand.chars, by rw [Tree.chars, text, spelled]; rfl, ?_⟩
  rcases first with rfl | rfl | rfl
  · exact ⟨by decide, by decide, fun _ number => absurd number (by decide)⟩
  · exact ⟨by decide, by decide, fun _ number => absurd number (by decide)⟩
  · exact ⟨by decide, by decide, fun _ number => absurd number (by decide)⟩

theorem opens_literal {mark : Mark} {t : Token} {value : Value} (scanned : t.Scanned .expression)
    (isLiteral : t.kind = .literal) : (Tree.literal mark t.text value).Opens := by
  obtain ⟨c, cs, spelled, first⟩ := scanned.literal_first isLiteral
  refine ⟨c, cs, spelled, ?_, ?_, fun _ number => ?_⟩
  · rcases first with rfl | rfl | rfl | rfl | digit | rfl
    · decide
    · decide
    · decide
    · decide
    · exact Text.isBlank_of_isNameChar (isNameChar_of_isDigit digit)
    · decide
  · rintro rfl
    exact absurd first (by decide)
  · rw [Tree.numeralHead, spelled]
    simpa using number

theorem opens_resolve {t : Token} (span : Span) (scanned : t.Scanned .expression)
    (isName : t.kind = .identifier) : (Parser.resolve d t.text span).Opens := by
  obtain ⟨c, cs, spelled, start⟩ := scanned.isNameStart isName
  refine ⟨c, cs, by rw [Parser.chars_resolve, spelled], ?_, ?_, fun _ number => ?_⟩
  · exact Text.isBlank_of_isNameChar (isNameChar_of_isNameStart start)
  · rintro rfl
    cases start
  · rcases number with digit | rfl
    · rw [Rule.isDigit_of_isNameStart start] at digit
      cases digit
    · cases start

/-- A phrase starts like this. -/
theorem Derivation.opens {l : Level} (k : Derivation assigning l) (scanned : k.Scanned) :
    (k.tree d).Opens := by
  have loose {level : Level} (below : ¬ Level.unary.rank ≤ level.rank) {p : Prop}
      (tight : Level.unary.rank ≤ level.rank) : p := absurd tight below
  match k with
  | .lift _ inner => exact inner.opens scanned
  | .assign _ _ target _ _ _ =>
    exact (target.opens scanned.1).extend ⟨_, by rw [tree, Tree.chars, Tree.between_eq]⟩
      (loose (show ¬ Level.unary.rank ≤ Level.assignment.rank by decide))
  | .choice condition _ _ _ _ _ _ =>
    exact (condition.opens scanned.1).extend
      ⟨_, by rw [tree, Tree.chars, Tree.between_eq, Tree.between_eq, List.append_assoc]⟩
      (loose (show ¬ Level.unary.rank ≤ Level.choice.rank by decide))
  | .chain op _ _ left _ _ _ =>
    exact (left.opens scanned.1).extend ⟨_, by rw [tree, Tree.chars, Tree.between_eq]⟩
      (loose (level_lt_unary op))
  | .exponent base _ _ _ =>
    exact (base.opens scanned.1).extend ⟨_, by rw [tree, Tree.chars, Tree.between_eq]⟩
      (loose (level_lt_unary .exponent))
  | .unary _ _ _ _ => exact opens_unary
  | .step _ operand _ _ =>
    exact (operand.opens scanned).extend ⟨_, by rw [tree, Tree.chars]⟩
      fun _ => ⟨operand.unary_le_level (by decide), rfl⟩
  | .access container _ _ _ _ =>
    exact (container.opens scanned.1).extend ⟨_, by rw [tree, Tree.chars]⟩
      fun _ => ⟨container.unary_le_level (by decide), rfl⟩
  | .lookup container _ _ _ _ _ =>
    exact (container.opens scanned.1).extend ⟨_, by rw [tree, Tree.chars]⟩
      fun _ => ⟨container.unary_le_level (by decide), rfl⟩
  | .invoke callee _ _ _ _ =>
    exact (callee.opens scanned).extend ⟨_, by rw [tree, Tree.chars, List.append_assoc]⟩
      fun _ => ⟨callee.unary_le_level (by decide), rfl⟩
  | .call callee _ _ _ _ _ =>
    exact (callee.opens scanned.1).extend ⟨_, by rw [tree, Tree.chars, List.append_assoc]⟩
      fun _ => ⟨callee.unary_le_level (by decide), rfl⟩
  | .literal t isLiteral => exact opens_literal scanned isLiteral
  | .name t isName => exact opens_resolve _ scanned isName
  | .group _ _ _ _ _ =>
    exact ⟨'(', _, rfl, by decide, by decide, fun _ first => absurd first (by decide)⟩
  | .template _ _ _ _ _ =>
    exact ⟨'\x60', _, rfl, by decide, by decide, fun _ first => absurd first (by decide)⟩

end Formulae
