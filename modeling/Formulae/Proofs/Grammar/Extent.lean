import Mathlib.Data.List.Basic
import Formulae.Proofs.Grammar.Use

/-!
The place of a phrase.

If its tokens stand in order, the tree of a phrase covers them from the first to the last.
So the children of a node lie in it, one behind another.
-/

namespace Formulae

namespace Token

/-- Tokens in the order of their places, of which none overlaps another. -/
structure Ordered (ts : List Token) : Prop where
  upright : ∀ t ∈ ts, t.span.start ≤ t.span.stop
  apart : ts.Pairwise fun t u => t.span.stop ≤ u.span.start

/-- The bytes from the start of the first token to the end of the last. -/
def extent (ts : List Token) : Span :=
  ⟨(ts.head?.map fun t => t.span.start).getD 0, (ts.getLast?.map fun t => t.span.stop).getD 0⟩

theorem exists_ends {ts : List Token} (filled : ts ≠ []) :
    ∃ first ∈ ts, ∃ last ∈ ts, extent ts = ⟨first.span.start, last.span.stop⟩ := by
  refine ⟨ts.head filled, List.head_mem filled, ts.getLast filled, List.getLast_mem filled, ?_⟩
  simp [extent, List.head?_eq_some_head filled, List.getLast?_eq_some_getLast filled]

theorem extent_append {front : List Token} (filled : front ≠ []) (middle : List Token)
    (last : Token) :
    extent (front ++ (middle ++ [last])) = ⟨(extent front).start, last.span.stop⟩ := by
  have ends : (front ++ (middle ++ [last])).getLast? = some last := by
    rw [← List.append_assoc, List.getLast?_concat]
  cases front with
  | nil => exact absurd rfl filled
  | cons first rest =>
    rw [extent, ends]
    rfl

namespace Ordered

variable {ts front back : List Token}

theorem sublist (ordered : Ordered ts) (part : front.Sublist ts) : Ordered front :=
  ⟨fun t member => ordered.upright t (part.subset member), ordered.apart.sublist part⟩

theorem left (ordered : Ordered (front ++ back)) : Ordered front :=
  ordered.sublist (List.sublist_append_left front back)

theorem right (ordered : Ordered (front ++ back)) : Ordered back :=
  ordered.sublist (List.sublist_append_right front back)

theorem stop_le_start (ordered : Ordered (front ++ back)) {t u : Token} (inFront : t ∈ front)
    (inBack : u ∈ back) : t.span.stop ≤ u.span.start :=
  (List.pairwise_append.mp ordered.apart).2.2 t inFront u inBack

/-- All tokens lie in their extent. -/
theorem bounds (ordered : Ordered ts) {t : Token} (member : t ∈ ts) :
    (extent ts).start ≤ t.span.start ∧ t.span.stop ≤ (extent ts).stop := by
  constructor
  · cases ts with
    | nil => cases member
    | cons first rest =>
      change first.span.start ≤ t.span.start
      rcases List.mem_cons.mp member with rfl | later
      · exact Nat.le_refl _
      · apply Nat.le_trans (ordered.upright first (List.mem_cons_self ..))
        exact List.rel_of_pairwise_cons ordered.apart later
  · obtain rfl | ⟨front, last, rfl⟩ := List.eq_nil_or_concat' ts
    · cases member
    have stop : (extent (front ++ [last])).stop = last.span.stop := by simp [extent]
    rw [stop]
    rcases List.mem_append.mp member with earlier | isLast
    · apply Nat.le_trans (ordered.stop_le_start earlier (List.mem_singleton_self last))
      exact ordered.upright last (by simp)
    · obtain rfl := List.mem_singleton.mp isLast
      exact Nat.le_refl _

/-- What covers the front and the last token covers all of them. -/
theorem merge_extent (filled : front ≠ []) (middle : List Token) {last : Token}
    (ordered : Ordered (front ++ (middle ++ [last]))) :
    (extent front).merge last.span = extent (front ++ (middle ++ [last])) := by
  obtain ⟨first, isFirst, final, isFinal, ends⟩ := exists_ends filled
  have upright := ordered.upright first (by simp [isFirst])
  have upright' := ordered.upright last (by simp)
  have before := ordered.stop_le_start isFirst (u := last) (by simp)
  have before' := ordered.stop_le_start isFinal (u := last) (by simp)
  rw [extent_append filled, ends, Span.merge]
  simp only [Span.mk.injEq]
  omega

/-- A segment lies in the extent of the whole. -/
theorem segment (ordered : Ordered (front ++ (ts ++ back))) (filled : ts ≠ []) :
    (extent (front ++ (ts ++ back))).start ≤ (extent ts).start ∧
      (extent ts).stop ≤ (extent (front ++ (ts ++ back))).stop := by
  obtain ⟨first, isFirst, last, isLast, ends⟩ := exists_ends filled
  rw [ends]
  exact ⟨(ordered.bounds (by simp [isFirst])).1, (ordered.bounds (by simp [isLast])).2⟩

/-- Segments one behind another have their extents so too. -/
theorem segments {parts : List (List Token)} (ordered : Ordered ts)
    (segments : Segments parts ts) (filled : ∀ part ∈ parts, part ≠ []) :
    (parts.map extent).Pairwise fun a b => a.stop ≤ b.start := by
  induction segments with
  | nil => exact .nil
  | cons before part behind inductionHypothesis =>
    rw [List.forall_mem_cons] at filled
    rw [List.map_cons, List.pairwise_cons]
    refine ⟨?_, inductionHypothesis ordered.right.right filled.2⟩
    intro extent' member
    obtain ⟨other, isOther, rfl⟩ := List.mem_map.mp member
    obtain ⟨front, back, rfl⟩ := behind.exists_of_mem isOther
    obtain ⟨_, _, last, isLast, ends⟩ := exists_ends filled.1
    obtain ⟨first, isFirst, _, _, ends'⟩ := exists_ends (filled.2 other isOther)
    rw [ends, ends']
    exact ordered.right.stop_le_start isLast (by simp [isFirst])

end Ordered

end Token

variable {assigning : Bool} {d : Dialect}

open Token

theorem Parser.span_resolve (d : Dialect) (s : String) (span : Span) :
    (resolve d s span).span = span := congrArg Mark.span (mark_resolve d s span)

/-- A phrase and tokens behind it, covered from the tree of the phrase to the last token. -/
theorem Derivation.merge_span {l : Level} {left : Derivation assigning l}
    (span : (left.tree d).span = extent left.tokens) (middle : List Token) {last : Token}
    (ordered : Ordered (left.tokens ++ (middle ++ [last]))) :
    (left.tree d).span.merge last.span = extent (left.tokens ++ (middle ++ [last])) := by
  rw [span]
  exact ordered.merge_extent left.tokens_ne_nil middle

/-- The same for tokens alone. -/
theorem Token.merge_span (o : Token) (middle : List Token) {last : Token}
    (ordered : Ordered ([o] ++ (middle ++ [last]))) :
    o.span.merge last.span = extent ([o] ++ (middle ++ [last])) :=
  ordered.merge_extent (List.cons_ne_nil o []) middle

/-- The tree of a phrase covers its tokens from the first to the last. -/
theorem Derivation.span_tree (d : Dialect) {l : Level} (k : Derivation assigning l)
    (ordered : Ordered k.tokens) : (k.tree d).span = extent k.tokens := by
  match k with
  | .lift _ inner => exact inner.span_tree d ordered
  | .assign _ _ left o _ right | .chain _ _ _ left o _ right | .exponent left o _ right =>
    obtain ⟨middle, tokens⟩ := right.exists_tokens_eq
    rw [Derivation.tokens, tokens] at ordered ⊢
    exact Derivation.merge_span (left.span_tree d ordered.left) (o :: middle) ordered
  | .choice left o isOp yes colon isColon right =>
    obtain ⟨middle, tokens⟩ := right.exists_tokens_eq
    have whole : (Derivation.choice left o isOp yes colon isColon right).tokens =
        left.tokens ++ (o :: (yes.tokens ++ colon :: middle) ++ [right.last]) := by
      simp [tokens]
    rw [whole] at ordered ⊢
    exact Derivation.merge_span (left.span_tree d ordered.left) _ ordered
  | .unary _ o _ inner =>
    obtain ⟨middle, tokens⟩ := inner.exists_tokens_eq
    rw [Derivation.tokens, tokens] at ordered ⊢
    exact Token.merge_span o middle ordered
  | .step _ left _ _ => exact Derivation.merge_span (left.span_tree d ordered.left) [] ordered
  | .access left o _ _ _ | .invoke left o _ _ _ =>
    exact Derivation.merge_span (left.span_tree d ordered.left) [o] ordered
  | .lookup left o _ key _ _ =>
    exact Derivation.merge_span (left.span_tree d ordered.left) (o :: key.tokens) ordered
  | .call left o _ args _ _ =>
    exact Derivation.merge_span (left.span_tree d ordered.left) (o :: args.tokens) ordered
  | .literal _ _ => rfl
  | .name t _ => exact Parser.span_resolve d t.text t.span
  | .group o _ inner _ _ => exact Token.merge_span o inner.tokens ordered
  | .template o _ fragments _ _ => exact Token.merge_span o fragments.tokens ordered

namespace Phrase

/-- The tokens of a phrase. -/
def tokens (k : Phrase assigning) : List Token := k.2.tokens

theorem map_uses (k : Phrase assigning) : k.uses.map Prod.snd = k.tokens := k.2.map_uses

theorem tokens_ne_nil (k : Phrase assigning) : k.tokens ≠ [] := k.2.tokens_ne_nil

theorem span_tree (d : Dialect) (k : Phrase assigning) (ordered : Ordered k.tokens) :
    (k.tree d).span = extent k.tokens := k.2.span_tree d ordered

end Phrase

theorem Segments.map {α β : Type} (f : α → β) {parts : List (List α)} {whole : List α}
    (segments : Segments parts whole) : Segments (parts.map (List.map f)) (whole.map f) := by
  induction segments with
  | nil => exact .nil _
  | cons front part _ inductionHypothesis =>
    rw [List.map_append, List.map_append]
    exact .cons _ _ inductionHypothesis

namespace Within

variable {ks : List (Phrase assigning)} {ts : List Tree} {us : List Use}

theorem tokens (within : Within d ks ts us) :
    Segments (ks.map Phrase.tokens) (us.map Prod.snd) := by
  have segments := within.segments.map Prod.snd
  simpa [Function.comp_def, Phrase.map_uses] using segments

/-- Among tokens in order, the trees of phrases cover the tokens of the phrases. -/
theorem map_span (within : Within d ks ts us) (ordered : Ordered (us.map Prod.snd)) :
    ts.map Tree.span = (ks.map Phrase.tokens).map extent := by
  rw [← within.trees, List.map_map, List.map_map]
  refine List.map_congr_left fun k member => k.span_tree d ?_
  obtain ⟨front, back, whole⟩ := within.tokens.exists_of_mem (List.mem_map_of_mem member)
  rw [whole] at ordered
  exact ordered.right.left

/-- Among tokens in order, the trees of phrases lie one behind another. -/
theorem apart (within : Within d ks ts us) (ordered : Ordered (us.map Prod.snd)) :
    ts.Pairwise fun t u => t.span.stop ≤ u.span.start := by
  have spans := ordered.segments within.tokens
    (List.forall_mem_map.mpr fun k _ => k.tokens_ne_nil)
  rw [← within.map_span ordered] at spans
  exact List.pairwise_map.mp spans

end Within

/-- A segment of the uses that a phrase makes up is covered within the whole. -/
theorem Phrase.extent_within {d : Dialect} (k : Phrase assigning) {front back : List Use}
    (ordered : Ordered ((front ++ (k.uses ++ back)).map Prod.snd)) :
    (extent ((front ++ (k.uses ++ back)).map Prod.snd)).start ≤ (k.tree d).span.start ∧
      (k.tree d).span.stop ≤ (extent ((front ++ (k.uses ++ back)).map Prod.snd)).stop := by
  rw [List.map_append, List.map_append, k.map_uses] at ordered ⊢
  rw [k.span_tree d ordered.right.left]
  exact ordered.segment k.tokens_ne_nil

/-- The children of a node lie in it, one behind another. -/
theorem Phrase.children_within (d : Dialect) (k : Phrase assigning) (ordered : Ordered k.tokens) :
    (∀ child ∈ (k.tree d).children, (k.tree d).span.start ≤ child.span.start ∧
      child.span.stop ≤ (k.tree d).span.stop) ∧
    (k.tree d).children.Pairwise fun t u => t.span.stop ≤ u.span.start := by
  obtain ⟨ks, within⟩ := k.2.exists_children d
  have ordered' : Ordered (k.uses.map Prod.snd) := by rwa [k.map_uses]
  refine ⟨?_, within.apart ordered'⟩
  intro child member
  obtain ⟨k', front, back, rfl, place⟩ := within.exists_phrase member
  have place : k.uses = front ++ (k'.uses ++ back) := place
  rw [k.span_tree d ordered, ← k.map_uses, place]
  rw [place] at ordered'
  exact k'.extent_within ordered'

end Formulae
