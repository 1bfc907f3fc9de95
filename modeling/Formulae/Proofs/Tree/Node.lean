import Formulae.Tree.Basic

/-!
The nodes of a tree.

A tree is sized if the depth that each of its nodes records is the height of the node.
-/

namespace Formulae

namespace Tree

/-- The first tree is a node of the second. -/
inductive NodeOf : Tree → Tree → Prop
  | root (t : Tree) : NodeOf t t
  | deeper {u child t : Tree} (immediate : child ∈ t.children) (inside : NodeOf u child) :
      NodeOf u t

theorem heights_eq (ts : List Tree) : heights ts = greatest (ts.map height) := by
  induction ts with
  | nil => rfl
  | cons t ts inductionHypothesis => simp [heights, inductionHypothesis]

theorem partHeights_eq (ps : List Part) :
    partHeights ps = greatest ((Part.embeds ps).map height) := by
  induction ps with
  | nil => rfl
  | cons p ps inductionHypothesis =>
    cases p with
    | text s => simp [partHeights, Part.embeds, inductionHypothesis]
    | embed t => simp [partHeights, Part.embeds, inductionHypothesis]

/-- A tree is one higher than its highest child. -/
theorem height_eq (t : Tree) : t.height = 1 + greatest (t.children.map height) := by
  cases t with
  | member _ container selector =>
    cases selector <;> simp [height, selectorHeight, children, Selector.keys]
  | call => simp [height, children, heights_eq]
  | template => simp [height, children, partHeights_eq]
  | _ => simp [height, children]

/-- What holds of a tree as soon as it holds of its children holds of every tree. -/
theorem induction_children {motive : Tree → Prop}
    (step : ∀ t : Tree, (∀ child ∈ t.children, motive child) → motive t) (t : Tree) : motive t := by
  -- Children are lower than their tree.
  induction same : t.height using Nat.strongRecOn generalizing t with
  | ind height inductionHypothesis =>
    refine step t fun child immediate => inductionHypothesis child.height ?_ child rfl
    have highest : child.height ≤ greatest (t.children.map Tree.height) :=
      greatest_le_iff.mp (Nat.le_refl _) _ (List.mem_map_of_mem immediate)
    rw [← same, t.height_eq]
    omega

/-- Every node records its height. -/
def Sized (t : Tree) : Prop := ∀ u : Tree, u.NodeOf t → u.depth = u.height

theorem Sized.depth_eq {t : Tree} (sized : t.Sized) : t.depth = t.height := sized t (.root t)

theorem Sized.depth_pos {t : Tree} (sized : t.Sized) : 0 < t.depth := by
  rw [sized.depth_eq, height_eq]
  omega

/-- A node that is made over its children is deeper than they are. -/
theorem depth_lt_of_over {t child : Tree} {span : Span} (made : t.mark = .over span t.children)
    (immediate : child ∈ t.children) : child.depth < t.depth := by
  have deepest : child.depth ≤ greatest (t.children.map depth) :=
    greatest_le_iff.mp (Nat.le_refl _) _ (List.mem_map_of_mem immediate)
  have own : t.depth = 1 + greatest (t.children.map depth) := by
    rw [depth, made]
    rfl
  omega

/-- A node that is made over its children is sized if they are. -/
theorem sized_of_over {t : Tree} {span : Span} (made : t.mark = .over span t.children)
    (sized : ∀ child ∈ t.children, child.Sized) : t.Sized := by
  intro u node
  cases node with
  | deeper immediate inside => exact sized _ immediate u inside
  | root =>
    have same : t.children.map depth = t.children.map height :=
      List.map_congr_left fun child member => (sized child member).depth_eq
    rw [depth, made, Mark.over, same, height_eq]

end Tree

end Formulae
