import Formulae.Proofs.Grammar.Derivation

/-!
Derivations are determined by their trees and tokens.

A tree tells the level of the operator at its root, so the lifts around it are those from
that level on. The trees of the operands tell where their tokens end.
-/

namespace Formulae

/-- The level of the operator at the root. -/
def Tree.level : Tree → Level
  | literal .. | constant .. | provided .. | name .. | group .. | template .. => .primary
  | unary .. => .unary
  | binary _ op .. => op.level
  | assign .. => .assignment
  | step .. | member .. | call .. => .suffixed
  | choice .. => .choice

theorem Parser.level_resolve (d : Dialect) (s : String) (span : Span) :
    (resolve d s span).level = .primary := by
  unfold resolve
  dsimp only
  split
  · rfl
  · split <;> rfl

/-- A name of any kind. -/
def Tree.isName : Tree → Bool
  | constant .. | provided .. | name .. => true
  | _ => false

@[simp] theorem Tree.isName_binary {mark : Mark} {op : BinaryOp} {left right : Tree} :
    (binary mark op left right).isName = false := rfl

@[simp] theorem Tree.isName_literal {mark : Mark} {text : String} {value : Value} :
    (literal mark text value).isName = false := rfl

@[simp] theorem Tree.isName_group {mark : Mark} {inner : Tree} :
    (group mark inner).isName = false := rfl

@[simp] theorem Tree.isName_template {mark : Mark} {parts : List Part} :
    (template mark parts).isName = false := rfl

@[simp] theorem Parser.isName_resolve (d : Dialect) (s : String) (span : Span) :
    (resolve d s span).isName = true := by
  unfold resolve
  dsimp only
  split
  · rfl
  · split <;> rfl

variable {assigning : Bool} {d : Dialect}

namespace Derivation

theorem rank_le_level {l : Level} (k : Derivation assigning l) :
    l.rank ≤ (k.tree d).level.rank := by
  match k with
  | .lift loose inner =>
    have tighter := inner.rank_le_level
    rw [Level.rank_next loose] at tighter
    exact Nat.le_of_succ_le tighter
  | .chain _ atLevel _ _ _ _ _ => exact Nat.le_of_eq (congrArg Level.rank atLevel.symm)
  | .name _ _ => exact Nat.le_of_eq (congrArg Level.rank (Parser.level_resolve ..).symm)
  | .assign .. | .choice .. | .exponent .. | .unary .. | .step .. | .access .. | .lookup ..
  | .invoke .. | .call .. | .literal .. | .group .. | .template .. => exact Nat.le_refl _

theorem level_ne_of_lift {l : Level} (loose : l ≠ .primary) (inner : Derivation assigning l.next) :
    (inner.tree d).level ≠ l := by
  intro same
  have tighter := inner.rank_le_level (d := d)
  rw [same, Level.rank_next loose] at tighter
  omega

theorem exists_lift {l : Level} (k : Derivation assigning l) (other : (k.tree d).level ≠ l) :
    ∃ loose inner, k = .lift loose inner := by
  match k with
  | .lift loose inner => exact ⟨loose, inner, rfl⟩
  | .chain _ atLevel _ _ _ _ _ => exact absurd atLevel other
  | .name _ _ => exact absurd (Parser.level_resolve ..) other
  | .assign .. | .choice .. | .exponent .. | .unary .. | .step .. | .access .. | .lookup ..
  | .invoke .. | .call .. | .literal .. | .group .. | .template .. => exact absurd rfl other

end Derivation

/-- The arguments of a call are not empty. -/
@[simp] theorem Arguments.trees_ne_nil (args : Arguments assigning) : args.trees d ≠ [] := by
  cases args <;> simp [trees]

/-- Phrases of one level with the same tree that stand at the start of the same tokens are
the same, and so is what stands behind them. -/
def Derivation.Determined (d : Dialect) {l : Level} (k : Derivation assigning l) : Prop :=
  ∀ (k' : Derivation assigning l) (rest rest' : List Token), k.tree d = k'.tree d →
    k.tokens ++ rest = k'.tokens ++ rest' → k = k' ∧ rest = rest'

def Arguments.Determined (d : Dialect) (args : Arguments assigning) : Prop :=
  ∀ (args' : Arguments assigning) (rest rest' : List Token), args.trees d = args'.trees d →
    args.tokens ++ rest = args'.tokens ++ rest' → args = args' ∧ rest = rest'

def Fragments.Determined (d : Dialect) (fragments : Fragments assigning) : Prop :=
  ∀ (fragments' : Fragments assigning) (rest rest' : List Token),
    fragments.parts d = fragments'.parts d →
    fragments.tokens ++ rest = fragments'.tokens ++ rest' →
    fragments = fragments' ∧ rest = rest'

namespace Derivation

theorem determined_lift {l : Level} (loose : l ≠ .primary) {inner : Derivation assigning l.next}
    (determinedInner : inner.Determined d) :
    (Derivation.lift loose inner).Determined d := by
  intro k' rest rest' sameTree sameTokens
  have other : (k'.tree d).level ≠ l := sameTree ▸ Derivation.level_ne_of_lift loose inner
  obtain ⟨_, inner', rfl⟩ := k'.exists_lift other
  obtain ⟨rfl, rfl⟩ := determinedInner inner' _ _ sameTree sameTokens
  exact ⟨rfl, rfl⟩

theorem determined_assign {op : AssignOp} (allowed : assigning = true)
    {target : Derivation assigning .choice} {o : Token} (isOp : o.isOperator op.symbol = true)
    {value : Derivation assigning .assignment}
    (determinedTarget : target.Determined d) (determinedValue : value.Determined d) :
    (Derivation.assign op allowed target o isOp value).Determined d := by
  intro k' rest rest' sameTree sameTokens
  cases k' with
  | lift loose inner =>
    exact absurd (congrArg Tree.level sameTree.symm) (level_ne_of_lift loose inner)
  | assign op' _ target' o' _ value' =>
    simp only [tree, Tree.assign.injEq] at sameTree
    obtain ⟨_, rfl, sameTarget, sameValue⟩ := sameTree
    simp only [tokens, List.append_assoc, List.cons_append] at sameTokens
    obtain ⟨rfl, after⟩ := determinedTarget target' _ _ sameTarget sameTokens
    obtain ⟨rfl, after₂⟩ := List.cons.inj after
    obtain ⟨rfl, rfl⟩ := determinedValue value' _ _ sameValue after₂
    exact ⟨rfl, rfl⟩
  | _ => simp [tree] at sameTree

theorem determined_choice {condition : Derivation assigning .disjunction} {o : Token}
    (isOp : o.isOperator "?" = true) {yes : Derivation assigning .choice} {colon : Token}
    (isColon : colon.isOperator ":" = true) {no : Derivation assigning .choice}
    (determinedCondition : condition.Determined d) (determinedYes : yes.Determined d)
    (determinedNo : no.Determined d) :
    (Derivation.choice condition o isOp yes colon isColon no).Determined d := by
  intro k' rest rest' sameTree sameTokens
  cases k' with
  | lift loose inner =>
    exact absurd (congrArg Tree.level sameTree.symm) (level_ne_of_lift loose inner)
  | choice condition' o' _ yes' colon' _ no' =>
    simp only [tree, Tree.choice.injEq] at sameTree
    obtain ⟨_, sameCondition, sameYes, sameNo⟩ := sameTree
    simp only [tokens, List.append_assoc, List.cons_append] at sameTokens
    obtain ⟨rfl, after⟩ := determinedCondition condition' _ _ sameCondition sameTokens
    obtain ⟨rfl, after₂⟩ := List.cons.inj after
    obtain ⟨rfl, after₃⟩ := determinedYes yes' _ _ sameYes after₂
    obtain ⟨rfl, after₄⟩ := List.cons.inj after₃
    obtain ⟨rfl, rfl⟩ := determinedNo no' _ _ sameNo after₄
    exact ⟨rfl, rfl⟩
  | _ => simp [tree] at sameTree

theorem determined_chain {l : Level} {op : BinaryOp} (atLevel : op.level = l)
    (chains : l ≠ .exponentiation) {left : Derivation assigning l} {o : Token}
    (isOp : o.isOperator op.symbol = true)
    {right : Derivation assigning l.next}
    (determinedLeft : left.Determined d) (determinedRight : right.Determined d) :
    (Derivation.chain op atLevel chains left o isOp right).Determined d := by
  intro k' rest rest' sameTree sameTokens
  cases k' with
  | lift loose inner =>
    exact absurd ((congrArg Tree.level sameTree.symm).trans atLevel)
      (level_ne_of_lift loose inner)
  | chain op' _ _ left' o' _ right' =>
    simp only [tree, Tree.binary.injEq] at sameTree
    obtain ⟨_, rfl, sameLeft, sameRight⟩ := sameTree
    simp only [tokens, List.append_assoc, List.cons_append] at sameTokens
    obtain ⟨rfl, after⟩ := determinedLeft left' _ _ sameLeft sameTokens
    obtain ⟨rfl, after₂⟩ := List.cons.inj after
    obtain ⟨rfl, rfl⟩ := determinedRight right' _ _ sameRight after₂
    exact ⟨rfl, rfl⟩
  | exponent => exact absurd rfl chains
  | name => exact absurd (congrArg Tree.isName sameTree.symm) (by simp [tree])
  | _ => simp [tree] at sameTree

theorem determined_exponent {base : Derivation assigning .unary} {o : Token}
    (isOp : o.isOperator "^" = true) {power : Derivation assigning .exponentiation}
    (determinedBase : base.Determined d) (determinedPower : power.Determined d) :
    (Derivation.exponent base o isOp power).Determined d := by
  intro k' rest rest' sameTree sameTokens
  cases k' with
  | lift loose inner =>
    exact absurd (congrArg Tree.level sameTree.symm) (level_ne_of_lift loose inner)
  | exponent base' o' _ power' =>
    simp only [tree, Tree.binary.injEq] at sameTree
    obtain ⟨_, _, sameBase, samePower⟩ := sameTree
    simp only [tokens, List.append_assoc, List.cons_append] at sameTokens
    obtain ⟨rfl, after⟩ := determinedBase base' _ _ sameBase sameTokens
    obtain ⟨rfl, after₂⟩ := List.cons.inj after
    obtain ⟨rfl, rfl⟩ := determinedPower power' _ _ samePower after₂
    exact ⟨rfl, rfl⟩
  | chain _ _ chains => exact absurd rfl chains

theorem determined_unary {op : UnaryOp} {o : Token} (isOp : o.isOperator op.symbol = true)
    {operand : Derivation assigning .unary}
    (determinedOperand : operand.Determined d) :
    (Derivation.unary op o isOp operand).Determined d := by
  intro k' rest rest' sameTree sameTokens
  cases k' with
  | lift loose inner =>
    exact absurd (congrArg Tree.level sameTree.symm) (level_ne_of_lift loose inner)
  | unary op' o' _ operand' =>
    simp only [tree, Tree.unary.injEq] at sameTree
    obtain ⟨_, rfl, sameOperand⟩ := sameTree
    obtain ⟨rfl, after⟩ := List.cons.inj sameTokens
    obtain ⟨rfl, rfl⟩ := determinedOperand operand' _ _ sameOperand after
    exact ⟨rfl, rfl⟩
  | _ => simp [tree] at sameTree

theorem determined_step {op : StepOp} {operand : Derivation assigning .suffixed} {o : Token}
    (isOp : o.isOperator op.symbol = true)
    (determinedOperand : operand.Determined d) :
    (Derivation.step op operand o isOp).Determined d := by
  intro k' rest rest' sameTree sameTokens
  cases k' with
  | lift loose inner =>
    exact absurd (congrArg Tree.level sameTree.symm) (level_ne_of_lift loose inner)
  | step op' operand' o' _ =>
    simp only [tree, Tree.step.injEq] at sameTree
    obtain ⟨_, rfl, sameOperand⟩ := sameTree
    simp only [tokens, List.append_assoc, List.cons_append, List.nil_append] at sameTokens
    obtain ⟨rfl, after⟩ := determinedOperand operand' _ _ sameOperand sameTokens
    obtain ⟨rfl, rfl⟩ := List.cons.inj after
    exact ⟨rfl, rfl⟩
  | _ => simp [tree] at sameTree

theorem determined_access {container : Derivation assigning .suffixed} {o : Token}
    (isOp : o.isOperator "." = true) {field : Token} (isName : field.kind = .identifier)
    (determinedContainer : container.Determined d) :
    (Derivation.access container o isOp field isName).Determined d := by
  intro k' rest rest' sameTree sameTokens
  cases k' with
  | lift loose inner =>
    exact absurd (congrArg Tree.level sameTree.symm) (level_ne_of_lift loose inner)
  | access container' o' _ field' _ =>
    simp only [tree, Tree.member.injEq] at sameTree
    obtain ⟨_, sameContainer, _⟩ := sameTree
    simp only [tokens, List.append_assoc, List.cons_append, List.nil_append] at sameTokens
    obtain ⟨rfl, after⟩ := determinedContainer container' _ _ sameContainer sameTokens
    obtain ⟨rfl, after₂⟩ := List.cons.inj after
    obtain ⟨rfl, rfl⟩ := List.cons.inj after₂
    exact ⟨rfl, rfl⟩
  | _ => simp [tree] at sameTree

theorem determined_lookup {container : Derivation assigning .suffixed} {o : Token}
    (isOpen : o.isOperator "[" = true) {key : Derivation assigning .assignment} {c : Token}
    (isClose : c.isOperator "]" = true)
    (determinedContainer : container.Determined d) (determinedKey : key.Determined d) :
    (Derivation.lookup container o isOpen key c isClose).Determined d := by
  intro k' rest rest' sameTree sameTokens
  cases k' with
  | lift loose inner =>
    exact absurd (congrArg Tree.level sameTree.symm) (level_ne_of_lift loose inner)
  | lookup container' o' _ key' c' _ =>
    simp only [tree, Tree.member.injEq, Selector.keyed.injEq] at sameTree
    obtain ⟨_, sameContainer, sameKey⟩ := sameTree
    simp only [tokens, List.append_assoc, List.cons_append, List.nil_append] at sameTokens
    obtain ⟨rfl, after⟩ := determinedContainer container' _ _ sameContainer sameTokens
    obtain ⟨rfl, after₂⟩ := List.cons.inj after
    obtain ⟨rfl, after₃⟩ := determinedKey key' _ _ sameKey after₂
    obtain ⟨rfl, rfl⟩ := List.cons.inj after₃
    exact ⟨rfl, rfl⟩
  | _ => simp [tree] at sameTree

theorem determined_invoke {callee : Derivation assigning .suffixed} {o : Token}
    (isOpen : o.isOperator "(" = true) {c : Token} (isClose : c.isOperator ")" = true)
    (determinedCallee : callee.Determined d) :
    (Derivation.invoke callee o isOpen c isClose).Determined d := by
  intro k' rest rest' sameTree sameTokens
  cases k' with
  | lift loose inner =>
    exact absurd (congrArg Tree.level sameTree.symm) (level_ne_of_lift loose inner)
  | invoke callee' o' _ c' _ =>
    simp only [tree, Tree.call.injEq] at sameTree
    obtain ⟨_, sameCallee, _⟩ := sameTree
    simp only [tokens, List.append_assoc, List.cons_append, List.nil_append] at sameTokens
    obtain ⟨rfl, after⟩ := determinedCallee callee' _ _ sameCallee sameTokens
    obtain ⟨rfl, after₂⟩ := List.cons.inj after
    obtain ⟨rfl, rfl⟩ := List.cons.inj after₂
    exact ⟨rfl, rfl⟩
  | call _ _ _ args' =>
    simp only [tree, Tree.call.injEq] at sameTree
    exact absurd sameTree.2.2.symm args'.trees_ne_nil
  | _ => simp [tree] at sameTree

theorem determined_call {callee : Derivation assigning .suffixed} {o : Token}
    (isOpen : o.isOperator "(" = true) {args : Arguments assigning} {c : Token}
    (isClose : c.isOperator ")" = true)
    (determinedCallee : callee.Determined d) (determinedArgs : args.Determined d) :
    (Derivation.call callee o isOpen args c isClose).Determined d := by
  intro k' rest rest' sameTree sameTokens
  cases k' with
  | lift loose inner =>
    exact absurd (congrArg Tree.level sameTree.symm) (level_ne_of_lift loose inner)
  | call callee' o' _ args' c' _ =>
    simp only [tree, Tree.call.injEq] at sameTree
    obtain ⟨_, sameCallee, sameArgs⟩ := sameTree
    simp only [tokens, List.append_assoc, List.cons_append, List.nil_append] at sameTokens
    obtain ⟨rfl, after⟩ := determinedCallee callee' _ _ sameCallee sameTokens
    obtain ⟨rfl, after₂⟩ := List.cons.inj after
    obtain ⟨rfl, after₃⟩ := determinedArgs args' _ _ sameArgs after₂
    obtain ⟨rfl, rfl⟩ := List.cons.inj after₃
    exact ⟨rfl, rfl⟩
  | _ => simp [tree] at sameTree

theorem determined_literal {t : Token} (isLiteral : t.kind = .literal) :
    (Derivation.literal t isLiteral : Derivation assigning .primary).Determined d := by
  intro k' rest rest' sameTree sameTokens
  cases k' with
  | lift loose inner => exact absurd rfl loose
  | literal t' _ =>
    obtain ⟨rfl, rfl⟩ := List.cons.inj sameTokens
    exact ⟨rfl, rfl⟩
  | name => exact absurd (congrArg Tree.isName sameTree.symm) (by simp [tree])
  | _ => simp [tree] at sameTree

theorem determined_name {t : Token} (isName : t.kind = .identifier) :
    (Derivation.name t isName : Derivation assigning .primary).Determined d := by
  intro k' rest rest' sameTree sameTokens
  cases k' with
  | lift loose inner => exact absurd rfl loose
  | name t' _ =>
    obtain ⟨rfl, rfl⟩ := List.cons.inj sameTokens
    exact ⟨rfl, rfl⟩
  | _ => exact absurd (congrArg Tree.isName sameTree) (by simp [tree])

theorem determined_group {o : Token} (isOpen : o.isOperator "(" = true)
    {inner : Derivation assigning .assignment} {c : Token} (isClose : c.isOperator ")" = true)
    (determinedInner : inner.Determined d) :
    (Derivation.group o isOpen inner c isClose).Determined d := by
  intro k' rest rest' sameTree sameTokens
  cases k' with
  | lift loose inner => exact absurd rfl loose
  | group o' _ inner' c' _ =>
    simp only [tree, Tree.group.injEq] at sameTree
    simp only [tokens, List.append_assoc, List.cons_append, List.nil_append] at sameTokens
    obtain ⟨rfl, after⟩ := List.cons.inj sameTokens
    obtain ⟨rfl, after₂⟩ := determinedInner inner' _ _ sameTree.2 after
    obtain ⟨rfl, rfl⟩ := List.cons.inj after₂
    exact ⟨rfl, rfl⟩
  | name => exact absurd (congrArg Tree.isName sameTree.symm) (by simp [tree])
  | _ => simp [tree] at sameTree

theorem determined_template {o : Token} (isOpen : o.isOperator "\x60" = true)
    {fragments : Fragments assigning} {c : Token} (isClose : c.isOperator "\x60" = true)
    (determinedFragments : fragments.Determined d) :
    (Derivation.template o isOpen fragments c isClose).Determined d := by
  intro k' rest rest' sameTree sameTokens
  cases k' with
  | lift loose inner => exact absurd rfl loose
  | template o' _ fragments' c' _ =>
    simp only [tree, Tree.template.injEq] at sameTree
    simp only [tokens, List.append_assoc, List.cons_append, List.nil_append] at sameTokens
    obtain ⟨rfl, after⟩ := List.cons.inj sameTokens
    obtain ⟨rfl, after₂⟩ := determinedFragments fragments' _ _ sameTree.2 after
    obtain ⟨rfl, rfl⟩ := List.cons.inj after₂
    exact ⟨rfl, rfl⟩
  | name => exact absurd (congrArg Tree.isName sameTree.symm) (by simp [tree])
  | _ => simp [tree] at sameTree

end Derivation

namespace Arguments

theorem determined_one {arg : Derivation assigning .assignment}
    (determinedArg : arg.Determined d) : (Arguments.one arg).Determined d := by
  intro args' rest rest' sameTrees sameTokens
  cases args' with
  | one arg' =>
    simp only [trees, List.cons.injEq, and_true] at sameTrees
    obtain ⟨rfl, rfl⟩ := determinedArg arg' _ _ sameTrees sameTokens
    exact ⟨rfl, rfl⟩
  | more arg' _ _ args' =>
    simp only [trees, List.cons.injEq] at sameTrees
    exact absurd sameTrees.2.symm args'.trees_ne_nil

theorem determined_more {arg : Derivation assigning .assignment} {comma : Token}
    (isComma : comma.isOperator "," = true) {args : Arguments assigning}
    (determinedArg : arg.Determined d) (determinedArgs : args.Determined d) :
    (Arguments.more arg comma isComma args).Determined d := by
  intro args' rest rest' sameTrees sameTokens
  cases args' with
  | one arg' => simp [trees] at sameTrees
  | more arg' comma' _ args' =>
    simp only [trees, List.cons.injEq] at sameTrees
    simp only [tokens, List.append_assoc, List.cons_append] at sameTokens
    obtain ⟨rfl, after⟩ := determinedArg arg' _ _ sameTrees.1 sameTokens
    obtain ⟨rfl, after₂⟩ := List.cons.inj after
    obtain ⟨rfl, rfl⟩ := determinedArgs args' _ _ sameTrees.2 after₂
    exact ⟨rfl, rfl⟩

end Arguments

namespace Fragments

theorem determined_nil : (Fragments.nil : Fragments assigning).Determined d := by
  intro fragments' rest rest' sameParts sameTokens
  cases fragments' with
  | nil => exact ⟨rfl, sameTokens⟩
  | _ => simp [parts] at sameParts

theorem determined_text {t : Token} (isText : t.kind = .literal) {fragments : Fragments assigning}
    (determinedRest : fragments.Determined d) :
    (Fragments.text t isText fragments).Determined d := by
  intro fragments' rest rest' sameParts sameTokens
  cases fragments' with
  | text t' _ fragments' =>
    simp only [parts, List.cons.injEq] at sameParts
    obtain ⟨rfl, after⟩ := List.cons.inj sameTokens
    obtain ⟨rfl, rfl⟩ := determinedRest fragments' _ _ sameParts.2 after
    exact ⟨rfl, rfl⟩
  | _ => simp [parts] at sameParts

theorem determined_embed {o c : Token} (isOpen : o.isOperator "\x7b" = true)
    {inner : Derivation assigning .assignment} (isClose : c.isOperator "\x7d" = true)
    {fragments : Fragments assigning} (determinedInner : inner.Determined d)
    (determinedRest : fragments.Determined d) :
    (Fragments.embed o isOpen inner c isClose fragments).Determined d := by
  intro fragments' rest rest' sameParts sameTokens
  cases fragments' with
  | embed o' _ inner' c' _ fragments' =>
    simp only [parts, List.cons.injEq, Part.embed.injEq] at sameParts
    simp only [tokens, List.append_assoc, List.cons_append] at sameTokens
    obtain ⟨rfl, after⟩ := List.cons.inj sameTokens
    obtain ⟨rfl, after₂⟩ := determinedInner inner' _ _ sameParts.1 after
    obtain ⟨rfl, after₃⟩ := List.cons.inj after₂
    obtain ⟨rfl, rfl⟩ := determinedRest fragments' _ _ sameParts.2 after₃
    exact ⟨rfl, rfl⟩
  | _ => simp [parts] at sameParts

end Fragments

mutual

theorem Derivation.determined {l : Level} (k : Derivation assigning l) : k.Determined d := by
  match k with
  | .lift loose inner => exact Derivation.determined_lift loose inner.determined
  | .assign _ allowed target _ isOp value =>
    exact Derivation.determined_assign allowed isOp target.determined value.determined
  | .choice condition _ isOp yes _ isColon no =>
    exact Derivation.determined_choice isOp isColon condition.determined yes.determined
      no.determined
  | .chain _ atLevel chains left _ isOp right =>
    exact Derivation.determined_chain atLevel chains isOp left.determined right.determined
  | .exponent base _ isOp power =>
    exact Derivation.determined_exponent isOp base.determined power.determined
  | .unary _ _ isOp operand => exact Derivation.determined_unary isOp operand.determined
  | .step _ operand _ isOp => exact Derivation.determined_step isOp operand.determined
  | .access container _ isOp _ isName =>
    exact Derivation.determined_access isOp isName container.determined
  | .lookup container _ isOpen key _ isClose =>
    exact Derivation.determined_lookup isOpen isClose container.determined key.determined
  | .invoke callee _ isOpen _ isClose =>
    exact Derivation.determined_invoke isOpen isClose callee.determined
  | .call callee _ isOpen args _ isClose =>
    exact Derivation.determined_call isOpen isClose callee.determined args.determined
  | .literal _ isLiteral => exact Derivation.determined_literal isLiteral
  | .name _ isName => exact Derivation.determined_name isName
  | .group _ isOpen inner _ isClose =>
    exact Derivation.determined_group isOpen isClose inner.determined
  | .template _ isOpen fragments _ isClose =>
    exact Derivation.determined_template isOpen isClose fragments.determined

theorem Arguments.determined (args : Arguments assigning) : args.Determined d := by
  match args with
  | .one arg => exact Arguments.determined_one arg.determined
  | .more arg _ isComma rest =>
    exact Arguments.determined_more isComma arg.determined rest.determined

theorem Fragments.determined (fragments : Fragments assigning) : fragments.Determined d := by
  match fragments with
  | .nil => exact Fragments.determined_nil
  | .text _ isText rest => exact Fragments.determined_text isText rest.determined
  | .embed _ isOpen inner _ isClose rest =>
    exact Fragments.determined_embed isOpen isClose inner.determined rest.determined

end

end Formulae
