import Formulae.Proofs.Grammar.Respan
import Formulae.Proofs.Token.Agreement
import Formulae.Proofs.Token.Excerpt

/-!
The places of the nodes of a tree are faithful.

What a node covers is read and parsed on its own to the same node: its tokens start where the
lexer expects an operand, and a phrase of any level is a whole expression.
-/

namespace Formulae

open Formulae.Lexer

/-- The node covers an excerpt of the text that is read and parsed on its own to the same node,
moved by where the excerpt starts. Its children lie within it, one behind another. -/
structure Tree.Faithful (d : Dialect) (text : List Char) (u : Tree) : Prop where
  reread : ∃ excerpt ts v, Text.slice? text u.span = some excerpt ∧
    Token.read .expression excerpt = .ok ts ∧ Tree.parse d ts = .ok v ∧
    v.mapSpan (Span.shift u.span.start) = u
  encloses : ∀ child ∈ u.children,
    u.span.start ≤ child.span.start ∧ child.span.stop ≤ u.span.stop
  apart : u.children.Pairwise fun a b => a.span.stop ≤ b.span.start

theorem merges_shift (offset : Nat) : Merges id (Span.shift offset) := by
  intro a a' b b' same same'
  rw [Span.shift_merge, ← same, ← same']
  rfl

theorem Token.respans_shift (offset : Nat) (t : Token) :
    Token.Respans id (Span.shift offset) (t.shift offset) t :=
  ⟨⟨rfl, rfl, rfl⟩, rfl⟩

variable {assigning : Bool} {d : Dialect}

namespace Phrase

/-- The tokens of a phrase are parsed to its tree wherever they are. -/
theorem exists_reread (standard : d.Standard assigning) (k : Phrase assigning) {offset : Nat}
    {ts : List Token} (moved : k.tokens = ts.map (Token.shift offset))
    (meant : Token.significant ts = ts) (deep : (k.tree d).depth ≤ Tree.depthLimit) :
    ∃ v, Tree.parse d ts = .ok v ∧ v.mapSpan (Span.shift offset) = k.tree d := by
  have related : List.Forall₂ (Token.Respans id (Span.shift offset)) (k.tokens ++ []) ts := by
    rw [List.append_nil, moved, List.forall₂_map_left_iff, List.forall₂_same]
    exact fun t _ => t.respans_shift offset
  obtain ⟨k', us, tokens, behind, respans⟩ := k.2.moves (merges_shift offset) d _ _ related
  -- The phrase takes all tokens, so that none is left behind.
  cases behind
  have tree : k.tree d = (k'.tree d).mapSpan (Span.shift offset) := by
    rw [← respans.tree, Tree.mapSpan_id]
    rfl
  -- A phrase that binds tighter is a whole expression too.
  have loosest : Level.assignment.rank ≤ k.1.rank := Nat.zero_le _
  obtain ⟨whole, tokens', _, tree'⟩ := k'.loosen loosest
  refine ⟨whole.tree d, ?_, by rw [tree', tree]⟩
  refine whole.parseWithin standard ?_ ?_ (List.forall_mem_nil _)
  · rwa [tree', ← Tree.depth_mapSpan (Span.shift offset), ← tree]
  · rw [meant, tokens', tokens]

variable {st st' : State} {cs rest : List Char} {rs : List Reading}

/-- The lexer expects an operand at the first reading of a phrase. -/
theorem expects_of_serves (k : Phrase assigning) {segment : List Reading}
    (serves : List.Forall₂ Reading.Serves segment k.uses) :
    ∀ r ∈ segment.head?, r.state.context = .expecting := by
  obtain ⟨t, others, uses⟩ := k.2.exists_operand
  rw [show k.uses = _ from uses] at serves
  cases serves with
  | cons first _ =>
    rintro r ⟨⟩
    exact first.admits

/-- A phrase that takes a segment of the readings of a text is faithful to the text. -/
theorem faithful (standard : d.Standard assigning) (k : Phrase assigning)
    (deep : (k.tree d).depth ≤ Tree.depthLimit) (trace : Trace st cs rs st' rest)
    (start : st.position = 0) {front segment back : List Reading}
    (place : meaningful rs = front ++ (segment ++ back))
    (serves : List.Forall₂ Reading.Serves segment k.uses) : (k.tree d).Faithful d cs := by
  have tokens : segment.map Reading.token = k.tokens := by
    rw [← k.map_uses]
    exact Reading.map_token_of_serves serves
  have ordered : Token.Ordered k.tokens := by
    rw [← tokens]
    exact trace.ordered_segment place
  have filled : segment ≠ [] := by
    rintro rfl
    exact k.tokens_ne_nil tokens.symm
  obtain ⟨encloses, apart⟩ := k.children_within d ordered
  obtain ⟨excerpt, ts, slice, read, meant, moved⟩ :=
    trace.exists_excerpt start place filled (k.expects_of_serves serves)
  rw [tokens, ← k.span_tree d ordered] at slice moved
  obtain ⟨v, parsed, same⟩ := k.exists_reread standard moved meant deep
  exact ⟨⟨excerpt, ts, v, slice, read, parsed, same⟩, encloses, apart⟩

end Phrase

namespace Flavor

variable {flavor : Flavor} {t root : Tree}

theorem depth_of_root (standard : d.Standard assigning) {ts : List Token}
    (parsed : flavor.parse d ts = .ok t) (isRoot : root ∈ flavor.roots t) :
    root.depth ≤ Tree.depthLimit := by
  cases flavor with
  | template =>
    obtain ⟨fragments, span, _, rfl, within⟩ := exists_fragments standard parsed
    have immediate : root ∈ (Tree.template (.over span (Part.embeds (fragments.parts d)))
      (fragments.parts d)).children := isRoot
    exact Nat.le_trans (Nat.le_of_lt (Tree.depth_lt_of_over rfl immediate)) within
  | plain | readOnly | assignment =>
    cases List.mem_singleton.mp isRoot
    exact Tree.depth_of_parseWithin parsed

theorem Takes.depth_le_of_node {us : List Use} (takes : flavor.Takes assigning d t us)
    (isRoot : root ∈ flavor.roots t) {u : Tree} (node : u.NodeOf root) :
    u.depth ≤ root.depth := by
  obtain ⟨k, _, _, tree, _⟩ := takes.exists_phrase isRoot (.root root)
  exact k.depth_le_of_node node tree

/-- The expressions in a text lie one behind another. -/
theorem Takes.roots_apart {us : List Use} (takes : flavor.Takes assigning d t us)
    (ordered : Token.Ordered (us.map Prod.snd)) :
    (flavor.roots t).Pairwise fun a b => a.span.stop ≤ b.span.start := by
  cases flavor with
  | template =>
    obtain ⟨fragments, _, rfl, rfl⟩ := takes
    obtain ⟨ks, within⟩ := fragments.exists_children d
    exact within.apart ordered
  | plain | readOnly | assignment => exact List.pairwise_singleton _ t

end Flavor

/-- Each node of what a text compiles to, or of what is embedded in it if it is a bare template,
is faithful to the text. What is embedded lies in order. -/
theorem Tree.spans_faithful (names : Vocabulary) (flavor : Flavor) {content : String} {t : Tree}
    (compiled : compile (.ofVocabulary names) flavor content = .ok t) :
    (∀ root ∈ flavor.roots t, ∀ u, NodeOf u root →
      u.Faithful ((Presets.ofVocabulary names).get flavor) content.toList) ∧
    (flavor.roots t).Pairwise fun a b => a.span.stop ≤ b.span.start := by
  obtain ⟨ts, read, parsed, _⟩ := compile_eq_ok_iff_parse.mp compiled
  obtain ⟨assigning, standard⟩ := Presets.exists_standard names flavor
  obtain ⟨rs, st', trace, rfl⟩ := Token.exists_trace_of_read read
  obtain ⟨us, takes, tokens⟩ := Flavor.exists_takes standard parsed
  rw [significant_meaningful] at tokens
  constructor
  · intro root isRoot u node
    obtain ⟨after, agree⟩ := takes.exists_agree
    have deep : u.depth ≤ depthLimit := Nat.le_trans (takes.depth_le_of_node isRoot node)
      (Flavor.depth_of_root standard parsed isRoot)
    obtain ⟨k, front, back, rfl, rfl⟩ := takes.exists_phrase isRoot node
    obtain ⟨before, segment, behind, place, serves⟩ :=
      exists_segment_of_forall₂ (agree.readings trace.chained tokens.symm)
    exact k.faithful standard deep trace rfl place serves
  · have ordered : Token.Ordered (us.map Prod.snd) := by
      rw [tokens]
      exact trace.ordered_meaningful
    exact takes.roots_apart ordered

/-- A difference embedded behind a letter of two bytes: the number with its sign is faithful. -/
theorem Tree.spans_faithful_of_template :
    let content := "é\x7ba - -1\x7d"
    ∃ t root u, compile (.ofVocabulary {}) .template content = .ok t ∧
      root ∈ Flavor.template.roots t ∧ NodeOf u root ∧ u.span = ⟨7, 9⟩ ∧
      u.Faithful ((Presets.ofVocabulary {}).get .template) content.toList := by
  intro content
  have computed : ((compile (.ofVocabulary {}) .template content).toOption.map fun t =>
      (t.children.flatMap children).map span) = some [⟨3, 4⟩, ⟨7, 9⟩] := by
    decide +kernel
  cases compiled : compile (.ofVocabulary {}) .template content with
  | error e =>
    rw [compiled] at computed
    cases computed
  | ok t =>
    rw [compiled] at computed
    have spans : (t.children.flatMap children).map span = [⟨3, 4⟩, ⟨7, 9⟩] :=
      Option.some.inj computed
    have member : (⟨7, 9⟩ : Span) ∈ (t.children.flatMap children).map span := by simp [spans]
    obtain ⟨u, grandchild, place⟩ := List.mem_map.mp member
    obtain ⟨root, isRoot, isChild⟩ := List.mem_flatMap.mp grandchild
    have node : NodeOf u root := .deeper isChild (.root u)
    have faithful := (spans_faithful {} .template compiled).1 root isRoot u node
    exact ⟨t, root, u, rfl, isRoot, node, place, faithful⟩

end Formulae
