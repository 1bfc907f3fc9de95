import Formulae.Proofs.Grammar.Reading

/-!
What is parsed is not deeper than the limit.
-/

namespace Formulae.Parser

/-- A step that gives no tree deeper than the limit. -/
def Bounded (limit : Nat) (step : Step Tree) : Prop :=
  ∀ c t c', step c = .ok (t, c') → t.depth ≤ limit

variable {d : Dialect} {limit : Nat} {inner : Nat → Step Tree}

theorem depth_resolve (d : Dialect) (s : String) (span : Span) :
    (resolve d s span).depth = 1 := by
  unfold resolve
  dsimp only
  split
  · rfl
  · split <;> rfl

theorem bounded_operand (positive : 0 < limit) : Bounded limit (operand d limit inner) := by
  intro c t c' reads
  cases operand_eq_ok_iff.mp reads with
  | literal => exact positive
  | name =>
    rw [depth_resolve]
    exact positive
  | opened _ _ _ within => exact within

theorem bounded_chain {min bound : Nat} {left : Tree} (within : left.depth ≤ limit) :
    Bounded limit (chain d limit inner min bound left) := by
  intro c t c' reads
  have taken := chain_eq_ok_iff.mp reads
  clear reads
  induction taken with
  | stop => exact within
  | step _ _ _ deeper _ inductionHypothesis => exact inductionHypothesis deeper

theorem bounded_expression (positive : 0 < limit) (room min : Nat) :
    Bounded limit (expression d limit room min) := by
  intro c t c' reads
  cases room with
  | zero => cases reads
  | succ room =>
    rw [expression] at reads
    obtain ⟨⟨left, c₁⟩, readsOperand, reads⟩ := bind_eq_ok_iff.mp reads
    exact bounded_chain (bounded_operand positive _ _ _ readsOperand) _ _ _ reads

end Formulae.Parser

namespace Formulae

open Formulae.Parser

theorem Tree.depth_of_parseWithin {d : Dialect} {limit : Nat} {ts : List Token} {t : Tree}
    (parsed : parseWithin d limit ts = .ok t) : t.depth ≤ limit := by
  rw [parseWithin] at parsed
  dsimp only at parsed
  split at parsed
  · cases parsed
  · obtain ⟨⟨_, c⟩, reads, finishes⟩ := bind_eq_ok_iff.mp parsed
    obtain ⟨_, _, same⟩ := bind_eq_ok_iff.mp finishes
    cases pure_eq_ok_iff.mp same
    cases limit with
    | zero => cases reads
    | succ limit => exact bounded_expression (Nat.succ_pos limit) _ _ _ _ _ reads

theorem Tree.depth_of_parseTemplateWithin {d : Dialect} {limit : Nat} {ts : List Token} {t : Tree}
    (parsed : parseTemplateWithin d limit ts = .ok t) : t.depth ≤ limit := by
  obtain ⟨_, _, limits⟩ := bind_eq_ok_iff.mp parsed
  obtain ⟨within, rfl⟩ := limited_eq_ok_iff.mp limits
  exact within

end Formulae
