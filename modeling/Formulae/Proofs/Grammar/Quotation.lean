import Mathlib.Data.List.Basic
import Formulae.Proofs.Grammar.Soundness

/-!
Templates in backticks.

Fragments between backticks are a template with these parts. Where the second backtick is
missing, the parser reads the fragments that there are and reports the end; it does not matter
what the free text there says.
-/

namespace Formulae

open Formulae.Parser

variable {assigning : Bool} {d : Dialect} {limit : Nat}

/-- Between backticks the fragments are an expression by themselves. -/
theorem Fragments.parseWithin_eq_template (standard : d.Standard assigning)
    (fragments : Fragments assigning) {o c : Token} (isOpen : o.isOperator "\x60" = true)
    (isClose : c.isOperator "\x60" = true) {span : Span}
    (deep : (Mark.over span (Part.embeds (fragments.parts d))).depth ≤ limit) {ts : List Token}
    (derived : Token.significant ts = o :: (fragments.tokens ++ [c])) :
    Tree.parseWithin d limit ts = .ok (.template
      (.over (o.span.merge c.span) (Part.embeds (fragments.parts d))) (fragments.parts d)) := by
  let template : Derivation assigning .primary := .template o isOpen fragments c isClose
  obtain ⟨k, tokens, _, tree⟩ := template.loosen (m := .assignment) (Nat.zero_le _)
  have derived : Token.significant ts = k.tokens ++ [] := by
    rw [derived, tokens, List.append_nil]
    rfl
  have shallow : (k.tree d).depth ≤ limit := by
    rw [tree]
    exact deep
  rw [k.parseWithin standard shallow derived nofun, tree]
  rfl

/-- Behind the fragments the parser looks for the backtick. -/
theorem Fragments.runs_out (standard : d.Standard assigning) (fragments : Fragments assigning)
    {room : Nat} (shallow : ∀ t ∈ Part.embeds (fragments.parts d), t.depth ≤ room)
    (within : room ≤ limit) (bound : Nat) (s : Span) :
    Parser.parts (expression d limit room) bound ⟨s, fragments.tokens⟩ = .error .unexpectedEnd := by
  match fragments with
  | .nil => cases bound <;> rfl
  | .text t isText rest =>
    have noMark : t.isOperator "\x60" = false := by simp [Token.isOperator, isText]
    unfold Parser.parts
    simp only [tokens, Cursor.isAt, noMark, Bool.false_eq_true, if_false]
    cases bound with
    | zero => rfl
    | succ bound =>
      have behind := rest.runs_out standard shallow within bound t.span
      simp only [part, isText, Cursor.next, bind, Except.bind, behind]
  | .embed o isOpen inner c isClose rest =>
    have noMark : o.isOperator "\x60" = false := Token.isOperator_ne isOpen (by decide)
    unfold Parser.parts
    simp only [tokens, Cursor.isAt, noMark, Bool.false_eq_true, if_false]
    cases bound with
    | zero => rfl
    | succ bound =>
      have reads : inner.ReadAt d (expression d limit room) Power.loosest :=
        (inner.continues standard).readAt (by decide) (by decide)
          (shallow _ (by simp [parts, Part.embeds])) within
      have closes : Closed d Power.loosest (c :: rest.tokens) :=
        closed_of_symbol standard isClose (fun rule => (symbol_ne_closing rule).2.2.1) _
      have deeper (t : Tree) (member : t ∈ Part.embeds (rest.parts d)) : t.depth ≤ room :=
        shallow t (by simp [parts, Part.embeds] at member ⊢; exact .inr member)
      have behind := rest.runs_out standard deeper within bound c.span
      obtain ⟨kind, text⟩ := Token.isOperator_iff.mp isOpen
      simp only [part, kind, text, if_true, Cursor.next, bind, Except.bind, reads _ _ closes,
        demand_eq_ok isClose, pure, Except.pure, behind]

/-- A template that nothing ends is no expression. -/
theorem Fragments.parseWithin_eq_unexpectedEnd (standard : d.Standard assigning)
    (fragments : Fragments assigning) {o : Token} (isOpen : o.isOperator "\x60" = true)
    {span : Span} (deep : (Mark.over span (Part.embeds (fragments.parts d))).depth ≤ limit)
    {ts : List Token} (derived : Token.significant ts = o :: fragments.tokens) :
    Tree.parseWithin d limit ts = .error .unexpectedEnd := by
  obtain _ | room := limit
  · rw [Tree.depth_over] at deep
    omega
  have opens : o.isOperator OpeningRule.template.symbol = true := isOpen
  have shallow (t : Tree) (member : t ∈ Part.embeds (fragments.parts d)) : t.depth ≤ room :=
    Tree.depth_le_of_over deep member
  have present : (Cursor.start ts).rest.isEmpty = false := by simp [Cursor.start, derived]
  simp only [Tree.parseWithin, present, Bool.false_eq_true, if_false]
  rw [Cursor.start, derived, expression, operand_of_opening standard opens]
  simp only [opened, bind, Except.bind, fragments.runs_out standard shallow (Nat.le_succ room)]

/-- Fragments that end in free text may end in other text. -/
theorem Fragments.exists_retexted (fragments : Fragments assigning) {front : List Token}
    {t u : Token} (ends : fragments.tokens = front ++ [t]) (wasText : t.kind = .literal)
    (isText : u.kind = .literal) :
    ∃ fragments' : Fragments assigning, fragments'.tokens = front ++ [u] ∧
      Part.embeds (fragments'.parts d) = Part.embeds (fragments.parts d) := by
  match fragments with
  | .nil => simp at ends
  | .text o wasText' rest =>
    cases front with
    | nil =>
      obtain ⟨rfl, none⟩ := List.cons.inj ends
      cases rest with
      | nil => exact ⟨.text u isText .nil, rfl, rfl⟩
      | text | embed => cases none
    | cons v front =>
      obtain ⟨rfl, behind⟩ := List.cons.inj ends
      obtain ⟨rest', tokens', embeds⟩ := rest.exists_retexted behind wasText isText
      exact ⟨.text o wasText' rest', by rw [tokens, tokens']; rfl, embeds⟩
  | .embed o isOpen inner c isClose rest =>
    obtain none | ⟨others, last, behind⟩ := List.eq_nil_or_concat' rest.tokens
    · -- The brace that closes a phrase is no text.
      rw [tokens, none, ← List.cons_append] at ends
      obtain ⟨_, same⟩ := List.append_inj' ends rfl
      rw [← (List.cons.inj same).1, (Token.isOperator_iff.mp isClose).1] at wasText
      cases wasText
    · rw [tokens, behind, ← List.cons_append, ← List.cons_append, ← List.append_assoc] at ends
      obtain ⟨rfl, same⟩ := List.append_inj' ends rfl
      rw [same] at behind
      obtain ⟨rest', tokens', embeds⟩ := rest.exists_retexted behind wasText isText
      refine ⟨.embed o isOpen inner c isClose rest', by simp [tokens'], ?_⟩
      exact congrArg (List.cons (inner.tree d)) embeds

end Formulae
