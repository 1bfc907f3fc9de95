import Formulae.Proofs.Grammar.Extent
import Formulae.Proofs.Token.Context
import Formulae.Proofs.Token.Tiling

/-!
Reading an excerpt of a text.

An excerpt that runs from the start of one token to the end of another reads, on its own, as
the tokens from the one to the other, if the lexer expected an operand where it starts.
-/

namespace Formulae

open Formulae.Lexer

/-- The token moved `offset` bytes to the right. -/
def Token.shift (offset : Nat) (t : Token) : Token := { t with span := t.span.shift offset }

/-- The part of a list that is between the first and the last of the elements kept. -/
theorem exists_block {α : Type} {p : α → Bool} {xs front part back : List α}
    (kept : xs.filter p = front ++ (part ++ back)) (filled : part ≠ []) :
    ∃ before block behind, xs = before ++ (block ++ behind) ∧ block.filter p = part ∧
      block.head? = part.head? ∧ block.getLast? = part.getLast? := by
  obtain ⟨before, _, rfl, _, kept⟩ := List.filter_eq_append_iff.mp kept
  obtain ⟨middle, behind, rfl, kept, _⟩ := List.filter_eq_append_iff.mp kept
  obtain ⟨first, others, rfl⟩ := List.exists_cons_of_ne_nil filled
  -- What is left out before the first and behind the last is no part of the block.
  obtain ⟨skipped, more, rfl, _, isFirst, keptOthers⟩ := List.filter_eq_cons_iff.mp kept
  obtain rfl | ⟨inner, last, rfl⟩ := List.eq_nil_or_concat' others
  · exact ⟨before ++ skipped, [first], more ++ behind, by simp, by simp [isFirst], rfl, rfl⟩
  · obtain ⟨inner', ending, rfl, keptInner, keptLast⟩ := List.filter_eq_append_iff.mp keptOthers
    obtain ⟨skipped', dropped, rfl, none, isLast, _⟩ := List.filter_eq_cons_iff.mp keptLast
    refine ⟨before ++ skipped, first :: (inner' ++ (skipped' ++ [last])), dropped ++ behind,
      by simp, ?_, rfl, ?_⟩
    · have none : skipped'.filter p = [] := List.filter_eq_nil_iff.mpr none
      simp [isFirst, isLast, keptInner, none]
    · simp [List.getLast?_cons]

namespace Lexer

def State.shift (offset : Nat) (st : State) : State :=
  { st with position := st.position + offset }

def Reading.shift (offset : Nat) (r : Reading) : Reading :=
  ⟨r.state.shift offset, r.token.shift offset⟩

variable {st st' : State} {cs rest : List Char} {rs : List Reading}

theorem State.after_shift (offset : Nat) (st : State) (lexeme : Lexeme) (width : Nat) :
    (st.shift offset).after lexeme width = (st.after lexeme width).shift offset := by
  simp [after, shift, Nat.add_right_comm]

theorem State.token_shift (offset : Nat) (st : State) (lexeme : Lexeme) (text : List Char) :
    (st.shift offset).token lexeme text = (st.token lexeme text).shift offset := by
  simp [token, shift, Token.shift, Span.shift, Nat.add_right_comm]

theorem meaningful_shift (offset : Nat) (rs : List Reading) :
    meaningful (rs.map (Reading.shift offset)) = (meaningful rs).map (Reading.shift offset) := by
  rw [meaningful, List.filter_map]
  rfl

namespace Trace

/-- A trace reads the same from a place further to the left. -/
theorem exists_unshifted {offset : Nat} (trace : Trace (st.shift offset) cs rs st' rest) :
    ∃ rs₀ st₀, Trace st cs rs₀ st₀ rest ∧ rs = rs₀.map (Reading.shift offset) := by
  generalize same : st.shift offset = start at trace
  induction trace generalizing st with
  | nil => exact ⟨[], st, .nil st _, rfl⟩
  | cons scans length inRange _ inductionHypothesis =>
    subst same
    rw [State.after_shift] at inductionHypothesis
    obtain ⟨rs₀, st₀, trace, rfl⟩ := inductionHypothesis rfl
    have scans : st.scan _ _ = _ := scans
    refine ⟨_, st₀, .cons scans length inRange trace, ?_⟩
    rw [List.map_cons, State.token_shift]
    rfl

/-- The first reading is made in the state at the start. -/
theorem state_eq (trace : Trace st cs rs st' rest) : ∀ r ∈ rs.head?, r.state = st := by
  cases trace with
  | nil => simp
  | cons => simp

theorem position_le (trace : Trace st cs rs st' rest) :
    ∀ r ∈ rs, st.position ≤ r.token.span.start := by
  induction trace with
  | nil => simp
  | cons _ _ _ _ inductionHypothesis =>
    rw [List.forall_mem_cons]
    refine ⟨Nat.le_refl _, ?_⟩
    intro r member
    exact Nat.le_trans (Nat.le_add_right _ _) (inductionHypothesis r member)

/-- The tokens of a text stand in order. -/
theorem ordered (trace : Trace st cs rs st' rest) : Token.Ordered (rs.map Reading.token) := by
  constructor
  · intro t member
    obtain ⟨r, isOne, rfl⟩ := List.mem_map.mp member
    exact Nat.le_of_lt (trace.filled r isOne)
  · induction trace with
    | nil => exact .nil
    | cons _ _ _ behind inductionHypothesis =>
      rw [List.map_cons, List.pairwise_cons]
      refine ⟨?_, inductionHypothesis⟩
      intro t member
      obtain ⟨r, isOne, rfl⟩ := List.mem_map.mp member
      exact behind.position_le r isOne

theorem ordered_meaningful (trace : Trace st cs rs st' rest) :
    Token.Ordered ((meaningful rs).map Reading.token) := by
  have kept : (meaningful rs).Sublist rs := List.filter_sublist
  exact trace.ordered.sublist (kept.map Reading.token)

theorem ordered_segment (trace : Trace st cs rs st' rest) {front part back : List Reading}
    (kept : meaningful rs = front ++ (part ++ back)) :
    Token.Ordered (part.map Reading.token) := by
  have ordered := trace.ordered_meaningful
  rw [kept, List.map_append, List.map_append] at ordered
  exact ordered.right.left

/-- The readings of a trace take the bytes from its start to its end. -/
theorem extent_eq (trace : Trace st cs rs st' rest) {part : List Reading} (filled : part ≠ [])
    (head : rs.head? = part.head?) (last : rs.getLast? = part.getLast?) :
    Token.extent (part.map Reading.token) = ⟨st.position, st'.position⟩ := by
  have starts := trace.starts (part.head filled) (by rw [head, List.head?_eq_some_head filled]; rfl)
  have ends := trace.ends (part.getLast filled)
    (by rw [last, List.getLast?_eq_some_getLast filled]; rfl)
  simp [Token.extent, List.head?_eq_some_head filled, List.getLast?_eq_some_getLast filled,
    starts, ends]

/-- The text that a trace in a text has read is the slice between its two places. -/
theorem slice?_texts (trace : Trace st cs rs st' rest) {before : List Char}
    (place : st.position = Text.width before) :
    Text.slice? (before ++ cs) ⟨st.position, st'.position⟩ = some (texts rs) := by
  rw [Text.slice?_eq_some_iff]
  exact ⟨before, rest, by rw [trace.text_eq, List.append_assoc], place.symm, trace.position_eq.symm⟩

/-- From the first to the last of some readings that mean something, the text reads as these, on
its own and where an operand is expected, if the lexer expected one there. -/
theorem exists_excerpt (trace : Trace st cs rs st' rest) (start : st.position = 0)
    {front part back : List Reading} (kept : meaningful rs = front ++ (part ++ back))
    (filled : part ≠ []) (expects : ∀ r ∈ part.head?, r.state.context = .expecting) :
    ∃ text ts, Text.slice? cs (Token.extent (part.map Reading.token)) = some text ∧
      Token.read .expression text = .ok ts ∧ Token.significant ts = ts ∧
      part.map Reading.token =
        ts.map (Token.shift (Token.extent (part.map Reading.token)).start) := by
  obtain ⟨before, block, behind, rfl, rfl, head, last⟩ := exists_block kept filled
  obtain ⟨st₁, middle, first, trace⟩ := trace.exists_split
  obtain ⟨st₂, rest', trace, _⟩ := trace.exists_split
  have place := first.position_eq
  rw [start, Nat.zero_add] at place
  have slice := trace.slice?_texts place
  rw [← first.text_eq] at slice
  rw [trace.extent_eq filled head last]
  have context : st₁.context = .expecting := by
    have isFirst := List.head?_eq_some_head filled
    rw [← trace.state_eq _ (head.trans isFirst)]
    exact expects _ isFirst
  have state : st₁ = State.shift st₁.position { mode := .expression } := by
    obtain ⟨mode, afterOperand, position⟩ := st₁
    cases context
    simp [State.shift]
  have excerpt := trace.front
  rw [state] at excerpt
  obtain ⟨rs₀, st₀, again, rfl⟩ := excerpt.exists_unshifted
  refine ⟨_, (meaningful rs₀).map Reading.token, slice, ?_, significant_meaningful rs₀, ?_⟩
  · rw [Token.read, readings_false_eq_ok_iff.mpr ⟨rs₀, st₀, again, rfl⟩]
    rfl
  · rw [← meaningful, meaningful_shift, List.map_map, List.map_map]
    rfl

end Trace

end Lexer

end Formulae
