import Formulae.Dialect.Basic
import Formulae.Proofs.Tree.Node

/-!
Binding powers along the edges of trees.

Where no two operators have the same rule, a tree shows which operators it was made with, and
with it the powers at which its operands were parsed. The powers are respected if an operator
binds no tighter than the operands that end where it stands, and tighter than the power at which
the operand was parsed that it continues.
-/

namespace Formulae

namespace Dialect

variable {d : Dialect}

/-- An operator with the rule has this power. -/
def Binds (d : Dialect) (rule : FollowingRule) (power : Power) : Prop :=
  ∃ symbol : String, d.following[symbol]? = some (power, rule)

/-- No two operators that follow an operand have the same rule. -/
def RulesDiffer (d : Dialect) : Prop :=
  ∀ (symbol symbol' : String) (power power' : Power) (rule : FollowingRule),
    d.following[symbol]? = some (power, rule) → d.following[symbol']? = some (power', rule) →
    symbol = symbol'

/-- A rule that only one operator has tells its power. -/
theorem Binds.unique (differ : d.RulesDiffer) {rule : FollowingRule} {power power' : Power}
    (binds : d.Binds rule power) (binds' : d.Binds rule power') : power = power' := by
  obtain ⟨symbol, found⟩ := binds
  obtain ⟨symbol', found'⟩ := binds'
  obtain rfl := differ _ _ _ _ _ found found'
  have same := found.symm.trans found'
  simp only [Option.some.injEq, Prod.mk.injEq, and_true] at same
  exact same

end Dialect

namespace Tree

variable {d : Dialect}

/-- The rule of the operator that made the node from the operand in front of it. -/
def followed? : Tree → Option (FollowingRule × Tree)
  | binary _ op left _ => some (.binary op, left)
  | assign _ op target _ => some (.assign op, target)
  | step _ op operand => some (.step op, operand)
  | member _ container (.named _) => some (.access, container)
  | member _ container (.keyed _) => some (.lookup, container)
  | call _ callee _ => some (.call, callee)
  | choice _ condition _ _ => some (.choice, condition)
  | _ => none

/-- The node ends with an operand, which is parsed at this power. -/
inductive LastOperand (d : Dialect) : Tree → Nat → Tree → Prop
  | unary (mark : Mark) (op : UnaryOp) (operand : Tree) :
      LastOperand d (.unary mark op operand) Power.unaryOperand operand
  | binary (mark : Mark) {op : BinaryOp} (left right : Tree) {power : Power}
      (binds : d.Binds (.binary op) power) :
      LastOperand d (.binary mark op left right) power.right right
  | assign (mark : Mark) {op : AssignOp} (target value : Tree) {power : Power}
      (binds : d.Binds (.assign op) power) :
      LastOperand d (.assign mark op target value) power.right value
  | choice (mark : Mark) (condition yes no : Tree) :
      LastOperand d (.choice mark condition yes no) Power.choice.right no

/-- The node has an operand behind an operator with more of the node behind it, which is parsed at
this power. -/
inductive InnerOperand (d : Dialect) : Tree → Nat → Tree → Prop
  | yes (mark : Mark) (condition yes no : Tree) {power : Power} (binds : d.Binds .choice power) :
      InnerOperand d (.choice mark condition yes no) power.right yes
  | inner (mark : Mark) (inner : Tree) : InnerOperand d (.group mark inner) Power.loosest inner
  | key (mark : Mark) (container key : Tree) :
      InnerOperand d (.member mark container (.keyed key)) Power.loosest key
  | argument (mark : Mark) (callee : Tree) {args : List Tree} {arg : Tree} (among : arg ∈ args) :
      InnerOperand d (.call mark callee args) Power.loosest arg
  | embed (mark : Mark) {parts : List Part} {tree : Tree} (among : tree ∈ Part.embeds parts) :
      InnerOperand d (.template mark parts) Power.loosest tree

/-- An operand that ends with the tree is parsed at this power. A tree that ends with a bracket
or a step has none. -/
inductive RightEdge (d : Dialect) : Tree → Nat → Prop
  | last {t operand : Tree} {power : Nat} (last : LastOperand d t power operand) :
      RightEdge d t power
  | within {t operand : Tree} {power power' : Nat} (last : LastOperand d t power' operand)
      (edge : RightEdge d operand power) : RightEdge d t power

/-- The second tree starts with the first one: it is the tree itself, or starts the operand in
front of the operator that made the tree. -/
inductive LeftEdge : Tree → Tree → Prop
  | whole (t : Tree) : LeftEdge t t
  | front {u t left : Tree} {rule : FollowingRule} (made : t.followed? = some (rule, left))
      (edge : LeftEdge u left) : LeftEdge u t

/-- Every operator along the left edge binds tighter than the power. -/
def BindsAbove (d : Dialect) (min : Nat) (t : Tree) : Prop :=
  ∀ (u : Tree) (rule : FollowingRule) (left : Tree), u.LeftEdge t →
    u.followed? = some (rule, left) → ∃ power, d.Binds rule power ∧ min < power.left

/-- The operator that made the node, if one did, binds no tighter than the operands that end in
front of it. -/
def FrontFits (d : Dialect) (t : Tree) : Prop :=
  ∀ (rule : FollowingRule) (left : Tree), t.followed? = some (rule, left) →
    ∃ power, d.Binds rule power ∧ ∀ p, left.RightEdge d p → power.left ≤ p

/-- The operator that made the node fits behind what is in front of it, and the operators that
continue an operand of the node bind tighter than the power at which the operand was parsed. -/
structure RespectsPowers (d : Dialect) (t : Tree) : Prop where
  front : t.FrontFits d
  last : ∀ p operand, t.LastOperand d p operand → operand.BindsAbove d p
  inner : ∀ p operand, t.InnerOperand d p operand → operand.BindsAbove d p

/-- Powers are respected at every node. -/
def Respectful (d : Dialect) (t : Tree) : Prop := ∀ u : Tree, u.NodeOf t → u.RespectsPowers d

theorem frontFits_of_unfollowed {t : Tree} (opens : t.followed? = none) : t.FrontFits d :=
  fun _ _ made => nomatch opens.symm.trans made

theorem frontFits_of_followed {t left : Tree} {rule : FollowingRule} {power : Power}
    (made : t.followed? = some (rule, left)) (binds : d.Binds rule power)
    (front : ∀ p, left.RightEdge d p → power.left ≤ p) : t.FrontFits d := by
  intro rule' left' made'
  cases made.symm.trans made'
  exact ⟨power, binds, front⟩

theorem bindsAbove_of_unfollowed {t : Tree} (opens : t.followed? = none) (min : Nat) :
    t.BindsAbove d min := by
  intro u rule left edge made
  cases edge with
  | whole => cases opens.symm.trans made
  | front made' _ => cases opens.symm.trans made'

theorem BindsAbove.followed {t left : Tree} {rule : FollowingRule} {power : Power} {min : Nat}
    (above : left.BindsAbove d min) (made : t.followed? = some (rule, left))
    (binds : d.Binds rule power) (tighter : min < power.left) : t.BindsAbove d min := by
  intro u rule' left' edge made'
  cases edge with
  | whole =>
    cases made.symm.trans made'
    exact ⟨power, binds, tighter⟩
  | front made'' edge =>
    cases made.symm.trans made''
    exact above u rule' left' edge made'

theorem RespectsPowers.respectful {t : Tree} (respects : t.RespectsPowers d)
    (children : ∀ child ∈ t.children, child.Respectful d) : t.Respectful d := by
  intro u node
  cases node with
  | root => exact respects
  | deeper immediate inside => exact children _ immediate u inside

end Tree

end Formulae
