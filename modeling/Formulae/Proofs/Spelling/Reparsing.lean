import Formulae.Proofs.Grammar.Exactness
import Formulae.Proofs.Spelling.Respelling

/-!
The text of a tree that has been parsed parses again.
-/

namespace Formulae

open Formulae.Lexer

theorem Token.significant_idem (ts : List Token) :
    significant (significant ts) = significant ts := by
  simp [significant]

theorem Token.significant_of_tokens {st : State} {cs : List Char} {ts : List Token}
    (read : tokens st cs = .ok ts) : Token.significant ts = ts := by
  rw [tokens] at read
  cases outcome : readings true st 0 cs with
  | error e =>
    rw [outcome] at read
    cases read
  | ok rs =>
    rw [outcome] at read
    cases read
    exact significant_idem _

/-- The operands of a phrase that a text was read as have been scanned. -/
theorem Derivation.scanned_of_read {assigning : Bool} (k : Derivation assigning .assignment)
    {source : List Char} {ts : List Token} (read : Token.read .expression source = .ok ts)
    (tokens : k.tokens = Token.body ts) : k.Scanned := by
  obtain ⟨sentinels, text, _⟩ := k.body_eq_iff.mp tokens
  rw [read_eq_tokens] at read
  rw [Token.significant_of_tokens read] at text
  have stream : Token.Stream .expression (k.tokens ++ sentinels) := text ▸ stream_of_tokens read
  exact (k.scanned stream).1

theorem Fragments.scanned_of_read {assigning : Bool} (fragments : Fragments assigning)
    {source : List Char} {ts : List Token} (read : Token.read .template source = .ok ts)
    (tokens : fragments.tokens = Token.significant ts) : fragments.Scanned := by
  rw [read_eq_tokens] at read
  rw [Token.significant_of_tokens read] at tokens
  have stream : Token.Stream .template (fragments.tokens ++ []) := by
    rw [List.append_nil, tokens]
    exact stream_of_tokens read
  exact (fragments.scanned stream).1

/-- The text of a phrase is read and parsed, to the same tree up to marks and the minus signs
that join numbers. -/
theorem Derivation.exists_reparsed {d : Dialect} {assigning : Bool}
    (standard : d.Standard assigning) {l : Level} (k : Derivation assigning l) (scanned : k.Scanned)
    (within : (k.tree d).depth ≤ Tree.depthLimit) :
    ∃ k' : Derivation assigning .assignment,
      Token.read .expression (k.tree d).chars = .ok k'.tokens ∧
      Tree.parse d k'.tokens = .ok (k'.tree d) ∧
      Tree.Respelled false (k.tree d) (k'.tree d) := by
  obtain ⟨k₁, position, reads, respelled, depth⟩ :=
    k.respells false scanned (d := d) (by simp) 0 [] apart_nil
  obtain ⟨k', tokens, _, tree⟩ := k₁.loosen (m := .assignment) (Nat.zero_le _)
  rw [← tree d] at respelled depth
  have again := reads.tokens_eq
  rw [← tokens] at again
  have kept : Token.significant k'.tokens = k'.tokens ++ [] := by
    rw [Token.significant_of_tokens again, List.append_nil]
  refine ⟨k', ?_, k'.parseWithin standard (Nat.le_trans depth within) kept (by simp), respelled⟩
  rw [read_eq_tokens]
  exact again

/-- The text of a parsed tree is read and parsed, to the same tree up to marks and the
minus signs that join numbers. -/
theorem Tree.exists_reparsed {d : Dialect} {assigning : Bool} (standard : d.Standard assigning)
    {source : List Char} {ts : List Token} {t : Tree}
    (read : Token.read .expression source = .ok ts) (parsed : Tree.parse d ts = .ok t) :
    ∃ us u, Token.read .expression t.chars = .ok us ∧ Tree.parse d us = .ok u ∧
      Tree.Respelled false t u := by
  obtain ⟨k, tokens, rfl⟩ := exists_derivation standard parsed
  obtain ⟨k', read', parsed', respelled⟩ := k.exists_reparsed standard
    (k.scanned_of_read read tokens) (Tree.depth_of_parseWithin parsed)
  exact ⟨k'.tokens, k'.tree d, read', parsed', respelled⟩

end Formulae
