import Formulae.Proofs.Grammar.Derivation
import Formulae.Proofs.Tree.Node

/-!
What each token of a phrase is used for.

The tokens of a phrase with their uses are those of its parts with some between them. Each
node of the tree of a phrase is the tree of a phrase within it.
-/

namespace Formulae

/-- What the parser takes a token for. -/
inductive Role where
  /-- The start of an operand. -/
  | operand
  /-- An operator behind an operand. -/
  | following
  /-- The name of a member. -/
  | field
  /-- A colon or a comma, or what closes a bracket or an embedded phrase. -/
  | mark
  /-- A piece of template text. -/
  | text
  /-- The brace that embeds a phrase. -/
  | embed
  /-- The backtick that ends a template. -/
  | closing
  /-- What may stand behind a whole expression. -/
  | sentinel
  deriving DecidableEq, Repr

/-- A token and what it is taken for. -/
abbrev Use := Role × Token

variable {assigning : Bool}

mutual

/-- The tokens derived with their uses, in order. -/
@[simp]
def Derivation.uses {l : Level} : Derivation assigning l → List Use
  | .lift _ inner => inner.uses
  | .assign _ _ target o _ value => target.uses ++ (.following, o) :: value.uses
  | .choice condition o _ yes colon _ no =>
    condition.uses ++ (.following, o) :: (yes.uses ++ (.mark, colon) :: no.uses)
  | .chain _ _ _ left o _ right => left.uses ++ (.following, o) :: right.uses
  | .exponent base o _ power => base.uses ++ (.following, o) :: power.uses
  | .unary _ o _ operand => (.operand, o) :: operand.uses
  | .step _ operand o _ => operand.uses ++ [(.following, o)]
  | .access container o _ field _ => container.uses ++ [(.following, o), (.field, field)]
  | .lookup container o _ key c _ => container.uses ++ (.following, o) :: (key.uses ++ [(.mark, c)])
  | .invoke callee o _ c _ => callee.uses ++ [(.following, o), (.mark, c)]
  | .call callee o _ args c _ => callee.uses ++ (.following, o) :: (args.uses ++ [(.mark, c)])
  | .literal t _ => [(.operand, t)]
  | .name t _ => [(.operand, t)]
  | .group o _ inner c _ => (.operand, o) :: (inner.uses ++ [(.mark, c)])
  | .template o _ fragments c _ => (.operand, o) :: (fragments.uses ++ [(.closing, c)])

@[simp]
def Arguments.uses : Arguments assigning → List Use
  | .one arg => arg.uses
  | .more arg comma _ rest => arg.uses ++ (.mark, comma) :: rest.uses

@[simp]
def Fragments.uses : Fragments assigning → List Use
  | .nil => []
  | .text t _ rest => (.text, t) :: rest.uses
  | .embed o _ inner c _ rest => (.embed, o) :: (inner.uses ++ (.mark, c) :: rest.uses)

end

mutual

theorem Derivation.map_uses {l : Level} (k : Derivation assigning l) :
    k.uses.map Prod.snd = k.tokens := by
  match k with
  | .lift _ inner => exact inner.map_uses
  | .assign _ _ left _ _ right | .chain _ _ _ left _ _ right | .exponent left _ _ right =>
    simp [left.map_uses, right.map_uses]
  | .choice condition _ _ yes _ _ no =>
    simp [condition.map_uses, yes.map_uses, no.map_uses]
  | .unary _ _ _ inner | .step _ inner _ _ | .access inner _ _ _ _ | .invoke inner _ _ _ _
  | .group _ _ inner _ _ => simp [inner.map_uses]
  | .lookup container _ _ key _ _ => simp [container.map_uses, key.map_uses]
  | .call callee _ _ args _ _ => simp [callee.map_uses, args.map_uses]
  | .literal _ _ | .name _ _ => rfl
  | .template _ _ fragments _ _ => simp [fragments.map_uses]

theorem Arguments.map_uses (args : Arguments assigning) : args.uses.map Prod.snd = args.tokens := by
  match args with
  | .one arg => exact arg.map_uses
  | .more arg _ _ rest => simp [arg.map_uses, rest.map_uses]

theorem Fragments.map_uses (fragments : Fragments assigning) :
    fragments.uses.map Prod.snd = fragments.tokens := by
  match fragments with
  | .nil => rfl
  | .text _ _ rest => simp [rest.map_uses]
  | .embed _ _ inner _ _ rest => simp [inner.map_uses, rest.map_uses]

end

/-- A phrase starts with an operand. -/
theorem Derivation.exists_operand {l : Level} (k : Derivation assigning l) :
    ∃ t rest, k.uses = (.operand, t) :: rest := by
  match k with
  | .lift _ inner => exact inner.exists_operand
  | .assign _ _ left _ _ _ | .choice left _ _ _ _ _ _ | .chain _ _ _ left _ _ _
  | .exponent left _ _ _ | .step _ left _ _ | .access left _ _ _ _ | .lookup left _ _ _ _ _
  | .invoke left _ _ _ _ | .call left _ _ _ _ _ =>
    obtain ⟨t, rest, same⟩ := left.exists_operand
    exact ⟨t, _, by rw [uses, same]; rfl⟩
  | .unary _ o _ _ | .literal o _ | .name o _ | .group o _ _ _ _ | .template o _ _ _ _ =>
    exact ⟨o, _, rfl⟩

/-- These lists lie in the list one behind another. -/
inductive Segments {α : Type} : List (List α) → List α → Prop
  | nil (rest : List α) : Segments [] rest
  | cons (front part : List α) {rest : List α} {parts : List (List α)}
      (behind : Segments parts rest) : Segments (part :: parts) (front ++ (part ++ rest))

namespace Segments

variable {α : Type} {part rest : List α} {parts others : List (List α)}

theorem whole (part : List α) : Segments [part] part := by
  simpa using cons [] part (nil [])

theorem prepend (front : List α) (segments : Segments parts rest) :
    Segments parts (front ++ rest) := by
  cases segments with
  | nil => exact nil _
  | cons front' part behind =>
    rw [← List.append_assoc]
    exact cons (front ++ front') part behind

theorem append (first : Segments parts part) (second : Segments others rest) :
    Segments (parts ++ others) (part ++ rest) := by
  induction first with
  | nil part => exact second.prepend part
  | cons front part _ inductionHypothesis =>
    simp only [List.append_assoc]
    exact cons front part inductionHypothesis

theorem extend (segments : Segments parts part) (back : List α) :
    Segments parts (part ++ back) := by
  simpa using segments.append (nil back)

theorem exists_of_mem (segments : Segments parts rest) (member : part ∈ parts) :
    ∃ front back, rest = front ++ (part ++ back) := by
  induction segments with
  | nil => cases member
  | cons front here behind inductionHypothesis =>
    rcases List.mem_cons.mp member with rfl | later
    · exact ⟨front, _, rfl⟩
    · obtain ⟨front', back, rfl⟩ := inductionHypothesis later
      exact ⟨front ++ (here ++ front'), back, by simp⟩

end Segments

/-- A phrase of any level. -/
abbrev Phrase (assigning : Bool) := Σ l : Level, Derivation assigning l

namespace Phrase

def uses (k : Phrase assigning) : List Use := k.2.uses

def tree (d : Dialect) (k : Phrase assigning) : Tree := k.2.tree d

end Phrase

/-- The phrases of some trees lie among some uses, in order. -/
structure Within (d : Dialect) (ks : List (Phrase assigning)) (ts : List Tree) (us : List Use) :
    Prop where
  trees : ks.map (Phrase.tree d) = ts
  segments : Segments (ks.map Phrase.uses) us

namespace Within

variable {d : Dialect} {ks ks' : List (Phrase assigning)} {ts ts' : List Tree} {us us' : List Use}

theorem none (us : List Use) : Within d ([] : List (Phrase assigning)) [] us := ⟨rfl, .nil us⟩

theorem one {l : Level} (k : Derivation assigning l) : Within d [⟨l, k⟩] [k.tree d] k.uses :=
  ⟨rfl, .whole k.uses⟩

theorem cons (u : Use) (within : Within d ks ts us) : Within d ks ts (u :: us) :=
  ⟨within.trees, within.segments.prepend [u]⟩

theorem append (first : Within d ks ts us) (second : Within d ks' ts' us') :
    Within d (ks ++ ks') (ts ++ ts') (us ++ us') := by
  constructor
  · rw [List.map_append, first.trees, second.trees]
  · rw [List.map_append]
    exact first.segments.append second.segments

theorem extend (within : Within d ks ts us) (back : List Use) : Within d ks ts (us ++ back) :=
  ⟨within.trees, within.segments.extend back⟩

end Within

theorem Parser.mark_resolve (d : Dialect) (s : String) (span : Span) :
    (resolve d s span).mark = .over span [] := by
  unfold resolve
  dsimp only
  split
  · rfl
  · split <;> rfl

theorem Parser.children_resolve (d : Dialect) (s : String) (span : Span) :
    (resolve d s span).children = [] := by
  unfold resolve
  dsimp only
  split
  · rfl
  · split <;> rfl

mutual

/-- The children of the tree of a phrase are the trees of phrases within it. -/
theorem Derivation.exists_children (d : Dialect) {l : Level} (k : Derivation assigning l) :
    ∃ ks : List (Phrase assigning), Within d ks (k.tree d).children k.uses := by
  match k with
  | .lift _ inner => exact inner.exists_children d
  | .assign _ _ left o _ right | .chain _ _ _ left o _ right | .exponent left o _ right =>
    exact ⟨_, (Within.one left).append ((Within.one right).cons _)⟩
  | .choice condition o _ yes colon _ no =>
    exact ⟨_, (Within.one condition).append
      (((Within.one yes).append ((Within.one no).cons _)).cons _)⟩
  | .unary _ o _ inner => exact ⟨_, (Within.one inner).cons _⟩
  | .step _ inner o _ => exact ⟨_, (Within.one inner).extend _⟩
  | .access inner o _ field _ => exact ⟨_, (Within.one inner).extend _⟩
  | .lookup container o _ key c _ =>
    exact ⟨_, (Within.one container).append (((Within.one key).extend _).cons _)⟩
  | .invoke callee o _ c _ => exact ⟨_, (Within.one callee).extend _⟩
  | .call callee o _ args c _ =>
    obtain ⟨ks, within⟩ := args.exists_children d
    exact ⟨_, (Within.one callee).append ((within.extend _).cons _)⟩
  | .literal t _ => exact ⟨[], .none _⟩
  | .name t _ =>
    refine ⟨[], ?_⟩
    rw [Derivation.tree, Parser.children_resolve]
    exact .none _
  | .group o _ inner c _ => exact ⟨_, ((Within.one inner).extend _).cons _⟩
  | .template o _ fragments c _ =>
    obtain ⟨ks, within⟩ := fragments.exists_children d
    exact ⟨ks, (within.extend _).cons _⟩

theorem Arguments.exists_children (d : Dialect) (args : Arguments assigning) :
    ∃ ks : List (Phrase assigning), Within d ks (args.trees d) args.uses := by
  match args with
  | .one arg => exact ⟨_, .one arg⟩
  | .more arg comma _ rest =>
    obtain ⟨ks, within⟩ := rest.exists_children d
    exact ⟨_, (Within.one arg).append (within.cons _)⟩

theorem Fragments.exists_children (d : Dialect) (fragments : Fragments assigning) :
    ∃ ks : List (Phrase assigning),
      Within d ks (Part.embeds (fragments.parts d)) fragments.uses := by
  match fragments with
  | .nil => exact ⟨[], .none _⟩
  | .text t _ rest =>
    obtain ⟨ks, within⟩ := rest.exists_children d
    exact ⟨ks, within.cons _⟩
  | .embed o _ inner c _ rest =>
    obtain ⟨ks, within⟩ := rest.exists_children d
    exact ⟨_, ((Within.one inner).append (within.cons _)).cons _⟩

end

/-- Each tree of a list has its phrase among the uses. -/
theorem Within.exists_phrase {d : Dialect} {ks : List (Phrase assigning)} {ts : List Tree}
    {us : List Use} {t : Tree} (within : Within d ks ts us) (member : t ∈ ts) :
    ∃ (k : Phrase assigning) (front back : List Use), k.tree d = t ∧
      us = front ++ (k.uses ++ back) := by
  rw [← within.trees] at member
  obtain ⟨k, isOne, same⟩ := List.mem_map.mp member
  obtain ⟨front, back, place⟩ := within.segments.exists_of_mem (List.mem_map_of_mem isOne)
  exact ⟨k, front, back, same, place⟩

/-- Each node of the tree of a phrase is the tree of a phrase within it. -/
theorem Phrase.exists_of_node {d : Dialect} {u t : Tree} (node : u.NodeOf t)
    (k : Phrase assigning) (tree : k.tree d = t) :
    ∃ (k' : Phrase assigning) (front back : List Use), k'.tree d = u ∧
      k.uses = front ++ (k'.uses ++ back) := by
  induction node generalizing k with
  | root => exact ⟨k, [], [], tree, by simp⟩
  | deeper immediate _ inductionHypothesis =>
    obtain ⟨ks, within⟩ := k.2.exists_children d
    rw [show k.2.tree d = _ from tree] at within
    obtain ⟨child, front, back, same, place⟩ := within.exists_phrase immediate
    obtain ⟨k', front', back', same', place'⟩ := inductionHypothesis child same
    refine ⟨k', front ++ front', back' ++ back, same', ?_⟩
    rw [uses, place, place']
    simp

/-- The tree of a phrase is made over its children. -/
theorem Derivation.exists_mark (d : Dialect) {l : Level} (k : Derivation assigning l) :
    ∃ span, (k.tree d).mark = .over span (k.tree d).children := by
  match k with
  | .lift _ inner => exact inner.exists_mark d
  | .name t _ =>
    rw [Derivation.tree, Parser.mark_resolve, Parser.children_resolve]
    exact ⟨_, rfl⟩
  | .assign .. | .choice .. | .chain .. | .exponent .. | .unary .. | .step .. | .access ..
  | .lookup .. | .invoke .. | .call .. | .literal .. | .group .. | .template .. => exact ⟨_, rfl⟩

/-- No node of the tree of a phrase is deeper than the tree. -/
theorem Phrase.depth_le_of_node {d : Dialect} {u t : Tree} (node : u.NodeOf t)
    (k : Phrase assigning) (tree : k.tree d = t) : u.depth ≤ t.depth := by
  induction node generalizing k with
  | root => exact Nat.le_refl _
  | deeper immediate _ inductionHypothesis =>
    subst tree
    obtain ⟨ks, within⟩ := k.2.exists_children d
    obtain ⟨child, _, _, same, _⟩ := within.exists_phrase immediate
    obtain ⟨span, made⟩ := k.2.exists_mark d
    exact Nat.le_trans (inductionHypothesis child same)
      (Nat.le_of_lt (Tree.depth_lt_of_over made immediate))

end Formulae
