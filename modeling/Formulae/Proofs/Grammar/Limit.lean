import Formulae.Tree.Parser

/-!
The limit on nesting.

A parser that may nest less deep reports that the nesting is too deep, or does what a
parser that may nest deeper does.
-/

namespace Formulae.Parser

/-- The first reports that the nesting is too deep, or both do the same. -/
def Lockstep {α : Type} (limit : Nat) (x y : Except ParseError α) : Prop :=
  x = .error (.nestingTooDeep limit) ∨ x = y

namespace Lockstep

variable {α β : Type} {limit limit' : Nat}

theorem refl (x : Except ParseError α) : Lockstep limit x x := .inr rfl

theorem bind {x y : Except ParseError α} {f g : α → Except ParseError β}
    (first : Lockstep limit x y) (next : ∀ a, Lockstep limit (f a) (g a)) :
    Lockstep limit (x >>= f) (y >>= g) := by
  rcases first with rfl | rfl
  · exact .inl rfl
  · cases x with
    | error e => exact .inr rfl
    | ok a => exact next a

theorem ite {p : Prop} [Decidable p] {x y x' y' : Except ParseError α} (yes : Lockstep limit x y)
    (no : Lockstep limit x' y') : Lockstep limit (if p then x else x') (if p then y else y') := by
  split
  · exact yes
  · exact no

theorem limited (deeper : limit ≤ limit') (t : Tree) :
    Lockstep limit (Parser.limited limit t) (Parser.limited limit' t) := by
  unfold Parser.limited
  split
  · exact .inl rfl
  · rw [if_neg (by omega)]
    exact refl _

/-- A node is made within the limit. -/
theorem node {c : Cursor} (deeper : limit ≤ limit') (t : Tree) :
    Lockstep limit (do let tree ← Parser.limited limit t; return (tree, c))
      (do let tree ← Parser.limited limit' t; return (tree, c)) :=
  bind (limited deeper t) fun _ => refl _

section Rules

variable {inner inner' : Nat → Step Tree}
  (nested : ∀ min c, Lockstep limit (inner min c) (inner' min c))

include nested

theorem part (c : Cursor) : Lockstep limit (Parser.part inner c) (Parser.part inner' c) := by
  unfold Parser.part
  split
  · exact refl _
  · split
    · exact refl _
    · split
      · exact bind (nested _ _) fun _ => refl _
      · exact refl _
    · exact refl _

theorem parts (bound : Nat) (c : Cursor) :
    Lockstep limit (Parser.parts inner bound c) (Parser.parts inner' bound c) := by
  induction bound generalizing c with
  | zero =>
    unfold Parser.parts
    exact refl _
  | succ bound inductionHypothesis =>
    unfold Parser.parts
    exact ite (refl _) (bind (part nested c) fun _ =>
      bind (inductionHypothesis _) fun _ => refl _)

theorem arguments (bound : Nat) (c : Cursor) :
    Lockstep limit (Parser.arguments inner bound c) (Parser.arguments inner' bound c) := by
  induction bound generalizing c with
  | zero =>
    unfold Parser.arguments
    exact bind (nested _ _) fun _ => refl _
  | succ bound inductionHypothesis =>
    unfold Parser.arguments
    refine bind (nested _ _) fun _ => ite ?_ (refl _)
    exact bind (inductionHypothesis _) fun _ => refl _

theorem allParts (bound : Nat) (c : Cursor) :
    Lockstep limit (Parser.allParts inner bound c) (Parser.allParts inner' bound c) := by
  induction bound generalizing c with
  | zero =>
    unfold Parser.allParts
    exact refl _
  | succ bound inductionHypothesis =>
    unfold Parser.allParts
    exact ite (refl _) (bind (part nested c) fun _ =>
      bind (inductionHypothesis _) fun _ => refl _)

variable (deeper : limit ≤ limit')

include deeper

theorem opened (start : Span) (rule : OpeningRule) (c : Cursor) :
    Lockstep limit (Parser.opened limit inner start rule c)
      (Parser.opened limit' inner' start rule c) := by
  cases rule with
  | group => exact bind (nested _ _) fun _ => bind (refl _) fun _ => node deeper _
  | template => exact bind (parts nested _ _) fun _ => node deeper _
  | unary op => exact bind (nested _ _) fun _ => node deeper _

theorem operand (d : Dialect) (c : Cursor) :
    Lockstep limit (Parser.operand d limit inner c) (Parser.operand d limit' inner' c) := by
  unfold Parser.operand
  split
  · exact refl _
  · split
    · exact refl _
    · exact refl _
    · split
      · exact opened nested deeper _ _ _
      · exact refl _
    · exact refl _

theorem followed (left : Tree) (power : Power) (rule : FollowingRule) (c : Cursor) :
    Lockstep limit (Parser.followed limit inner left power rule c)
      (Parser.followed limit' inner' left power rule c) := by
  cases rule with
  | binary op => exact bind (nested _ _) fun _ => node deeper _
  | assign op => exact bind (nested _ _) fun _ => node deeper _
  | step op => exact node deeper _
  | access => exact bind (refl _) fun _ => node deeper _
  | lookup => exact bind (nested _ _) fun _ => bind (refl _) fun _ => node deeper _
  | call =>
    unfold Parser.followed
    exact ite (bind (refl _) fun _ => node deeper _)
      (bind (arguments nested _ _) fun _ => node deeper _)
  | choice =>
    exact bind (nested _ _) fun _ => bind (refl _) fun _ => bind (nested _ _) fun _ => node deeper _

theorem chain (d : Dialect) (min bound : Nat) (left : Tree) (c : Cursor) :
    Lockstep limit (Parser.chain d limit inner min bound left c)
      (Parser.chain d limit' inner' min bound left c) := by
  induction bound generalizing left c with
  | zero =>
    unfold Parser.chain
    exact refl _
  | succ bound inductionHypothesis =>
    unfold Parser.chain
    split
    · exact refl _
    · exact ite (refl _) (bind (followed nested deeper _ _ _ _) fun _ => inductionHypothesis _ _)

end Rules

theorem expression (d : Dialect) {room room' : Nat} (deeper : limit ≤ limit')
    (roomier : room ≤ room') (min : Nat) (c : Cursor) :
    Lockstep limit (Parser.expression d limit room min c)
      (Parser.expression d limit' room' min c) := by
  induction room generalizing room' min c with
  | zero => exact .inl rfl
  | succ room inductionHypothesis =>
    obtain _ | room' := room'
    · omega
    have nested := inductionHypothesis (Nat.le_of_succ_le_succ roomier)
    exact bind (operand nested deeper d c) fun _ => chain nested deeper d _ _ _ _

theorem parseWithin (d : Dialect) (deeper : limit ≤ limit') (ts : List Token) :
    Lockstep limit (Tree.parseWithin d limit ts) (Tree.parseWithin d limit' ts) := by
  unfold Tree.parseWithin
  exact ite (refl _) (bind (expression d deeper deeper _ _) fun _ => refl _)

theorem parseTemplateWithin (d : Dialect) (deeper : limit ≤ limit') (ts : List Token) :
    Lockstep limit (Tree.parseTemplateWithin d limit ts)
      (Tree.parseTemplateWithin d limit' ts) := by
  unfold Tree.parseTemplateWithin
  exact bind (allParts (expression d deeper deeper) _ _) fun _ => limited deeper _

end Lockstep

end Formulae.Parser
