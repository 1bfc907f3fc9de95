import Mathlib.Data.List.DropRight
import Formulae.Proofs.Grammar.Limit
import Formulae.Proofs.Grammar.Soundness
import Formulae.Proofs.Grammar.Unambiguity

/-!
The parser accepts exactly what the grammar derives.
-/

namespace Formulae

open Formulae.Parser

/-- The tokens that mean something, without the sentinels at the end. -/
def Token.body (ts : List Token) : List Token :=
  (significant ts).rdropWhile fun t => t.kind = .sentinel

theorem Token.body_eq_iff {ts front : List Token} {last : Token} (other : last.kind ≠ .sentinel) :
    body ts = front ++ [last] ↔ ∃ sentinels, significant ts = front ++ [last] ++ sentinels ∧
      ∀ t ∈ sentinels, t.kind = .sentinel := by
  constructor
  · intro same
    refine ⟨(significant ts).rtakeWhile fun t => t.kind = .sentinel, ?_, ?_⟩
    · rw [← same, body, List.rdropWhile_append_rtakeWhile]
    · intro t member
      simpa using List.mem_rtakeWhile_imp member
  · rintro ⟨sentinels, same, ends⟩
    have dropped : ∀ t ∈ sentinels.reverse, decide (t.kind = .sentinel) = true := by
      simpa using ends
    rw [body, same, List.rdropWhile, List.reverse_append, List.dropWhile_append_of_pos dropped,
      ← List.rdropWhile, List.rdropWhile_concat_neg _ _ _ (by simpa using other)]

variable {assigning : Bool} {d : Dialect} {limit : Nat}

theorem Derivation.body_eq_iff {ts : List Token} (k : Derivation assigning .assignment) :
    k.tokens = Token.body ts ↔ ∃ sentinels, Token.significant ts = k.tokens ++ sentinels ∧
      ∀ t ∈ sentinels, t.kind = .sentinel := by
  obtain ⟨front, same⟩ := k.exists_tokens_eq
  rw [same, eq_comm, Token.body_eq_iff k.last_ne_sentinel]

/-- What is parsed has a derivation. -/
theorem exists_derivation (standard : d.Standard assigning) {ts : List Token} {t : Tree}
    (parsed : Tree.parseWithin d limit ts = .ok t) :
    ∃ k : Derivation assigning .assignment, k.tokens = Token.body ts ∧ k.tree d = t := by
  rw [Tree.parseWithin] at parsed
  dsimp only at parsed
  split at parsed
  · cases parsed
  · obtain ⟨⟨_, c⟩, reads, finishes⟩ := bind_eq_ok_iff.mp parsed
    obtain ⟨_, ends, same⟩ := bind_eq_ok_iff.mp finishes
    cases pure_eq_ok_iff.mp same
    obtain ⟨k, tokens, _, tree⟩ := (sound_expression standard limit).loosest reads
    refine ⟨k, k.body_eq_iff.mpr ⟨c.rest, tokens, ?_⟩, tree⟩
    simp only [finish] at ends
    split at ends
    · next empty => simpa using List.dropWhile_eq_nil_iff.mp empty
    · split at ends <;> cases ends

/-- What has a derivation is parsed, unless it nests too deep. -/
theorem parseWithin_eq_ok (standard : d.Standard assigning) {ts : List Token}
    (shallow : Tree.parseWithin d limit ts ≠ .error (.nestingTooDeep limit))
    (k : Derivation assigning .assignment) (derived : k.tokens = Token.body ts) :
    Tree.parseWithin d limit ts = .ok (k.tree d) := by
  obtain ⟨sentinels, tokens, ends⟩ := k.body_eq_iff.mp derived
  have roomy : Tree.parseWithin d (max limit (k.tree d).depth) ts = .ok (k.tree d) :=
    k.parseWithin standard (Nat.le_max_right ..) tokens ends
  rcases Lockstep.parseWithin d (Nat.le_max_left limit (k.tree d).depth) ts with tooDeep | same
  · exact absurd tooDeep shallow
  · exact same.trans roomy

/-- A list of tokens has one derivation at most. -/
theorem Derivation.eq_of_tokens_eq (standard : d.Standard assigning)
    {k k' : Derivation assigning .assignment} (same : k.tokens = k'.tokens) : k = k' := by
  let limit := max (k.tree d).depth (k'.tree d).depth
  have closed : Closed d Power.loosest [] := by
    rintro p rule ⟨⟩
  have reads : k.ReadAt d (expression d limit limit) Power.loosest :=
    (k.continues standard).readAt (by decide) (by decide) (Nat.le_max_left ..) (Nat.le_refl _)
  have reads' : k'.ReadAt d (expression d limit limit) Power.loosest :=
    (k'.continues standard).readAt (by decide) (by decide) (Nat.le_max_right ..) (Nat.le_refl _)
  have both := (reads default [] closed).symm.trans (same ▸ reads' default [] closed)
  have sameTree : k.tree d = k'.tree d := congrArg Prod.fst (Except.ok.inj both)
  exact (k.determined k' [] [] sameTree (by rw [same])).1

/-- The grammar of the assignment dialect is exact and unambiguous: the parser gives a tree
just when the tokens, without sentinels at the end, derive it, and there is one derivation
at most. -/
theorem parse_exact (names : Vocabulary) (ts : List Token)
    (shallow : Tree.parse (.assignment names) ts ≠ .error (.nestingTooDeep Tree.depthLimit)) :
    (∀ t, Tree.parse (.assignment names) ts = .ok t ↔
      ∃ k : Derivation true .assignment, k.tokens = Token.body ts ∧
        k.tree (.assignment names) = t) ∧
    ∀ k k' : Derivation true .assignment, k.tokens = Token.body ts → k'.tokens = Token.body ts →
      k = k' := by
  have standard := Dialect.standard_assignment names
  refine ⟨fun t => ⟨exists_derivation standard, ?_⟩, fun k k' derived derived' => ?_⟩
  · rintro ⟨k, derived, rfl⟩
    exact parseWithin_eq_ok standard shallow k derived
  · exact Derivation.eq_of_tokens_eq standard (derived.trans derived'.symm)

/-- A difference that ends in a sentinel has its one derivation. -/
theorem parse_exact_of_difference :
    let name (s : String) : Token := ⟨.identifier, default, s, none⟩
    let ts := [name "a", ⟨.operator, default, "-", none⟩, name "b", ⟨.sentinel, default, ";", none⟩]
    Tree.parse (.assignment {}) ts ≠ .error (.nestingTooDeep Tree.depthLimit) ∧
      ∃ k : Derivation true .assignment, k.tokens = Token.body ts ∧
        ∀ k' : Derivation true .assignment, k'.tokens = Token.body ts → k' = k := by
  intro name ts
  have parsed : ∃ t, Tree.parse (.assignment {}) ts = .ok t := ⟨_, rfl⟩
  obtain ⟨t, parsed⟩ := parsed
  have shallow : Tree.parse (.assignment {}) ts ≠ .error (.nestingTooDeep Tree.depthLimit) := by
    rw [parsed]
    nofun
  obtain ⟨accepted, unique⟩ := parse_exact {} ts shallow
  obtain ⟨k, derived, _⟩ := (accepted t).mp parsed
  exact ⟨shallow, k, derived, fun k' derived' => unique k' k derived' derived⟩

end Formulae
