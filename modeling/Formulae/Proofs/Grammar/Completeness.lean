import Mathlib.Data.List.TakeWhile
import Formulae.Proofs.Grammar.Derivation

/-!
Every derivation is parsed.

A phrase is parsed at each power that takes the operators of its level, and then what
follows it is up to the operators behind it. The tokens behind a phrase close it if none
of them could have continued its last operand.
-/

namespace Formulae

open Formulae.Parser

theorem Token.isOperator_ne {t : Token} {symbol other : String}
    (isOp : t.isOperator symbol = true) (differs : symbol ≠ other) :
    t.isOperator other = false := by
  rw [Token.isOperator_iff] at isOp
  simp [Token.isOperator, isOp, differs]

namespace Parser

/-- No operator at the front binds tighter than the power. -/
def Closed (d : Dialect) (power : Nat) (rest : List Token) : Prop :=
  ∀ p rule, Cursor.following? d ⟨default, rest⟩ = some (p, rule) → p.left ≤ power

theorem Closed.mono {d : Dialect} {low high : Nat} {rest : List Token} (closed : Closed d low rest)
    (weaker : low ≤ high) : Closed d high rest :=
  fun p rule found => Nat.le_trans (closed p rule found) weaker

theorem following?_eq_some_iff {d : Dialect} {assigning : Bool} (standard : d.Standard assigning)
    {s : Span} {o : Token} {rest : List Token} {p : Power} {rule : FollowingRule} :
    Cursor.following? d ⟨s, o :: rest⟩ = some (p, rule) ↔
      o.isOperator rule.symbol = true ∧ rule.power = p ∧
        (rule.isAssign = true → assigning = true) := by
  rw [Token.isOperator_iff]
  simp only [Cursor.following?]
  split
  · next operator => rw [standard.following, and_iff_right operator, eq_comm]
  · next other => simp [other]

theorem closed_of_rule {d : Dialect} {assigning : Bool} (standard : d.Standard assigning)
    {o : Token} {rest : List Token} {rule : FollowingRule} (isOp : o.isOperator rule.symbol = true)
    (allowed : rule.isAssign = true → assigning = true) {power : Nat}
    (looser : rule.power.left ≤ power) : Closed d power (o :: rest) := by
  intro p rule' found
  have same : Cursor.following? d ⟨default, o :: rest⟩ = some (rule.power, rule) :=
    (following?_eq_some_iff standard).mpr ⟨isOp, rfl, allowed⟩
  rw [same] at found
  cases found
  exact looser

/-- An operator that follows no operand closes every phrase. -/
theorem closed_of_symbol {d : Dialect} {assigning : Bool} (standard : d.Standard assigning)
    {o : Token} {rest : List Token} {symbol : String} (isOp : o.isOperator symbol = true)
    (other : ∀ rule : FollowingRule, rule.symbol ≠ symbol) (power : Nat) :
    Closed d power (o :: rest) := by
  intro p rule found
  have isRule := ((following?_eq_some_iff standard).mp found).1
  rw [Token.isOperator_iff] at isOp isRule
  exact absurd (isRule.2.symm.trans isOp.2) (other rule)

theorem symbol_ne_closing (rule : FollowingRule) :
    rule.symbol ≠ ")" ∧ rule.symbol ≠ "]" ∧ rule.symbol ≠ "\x7d" ∧ rule.symbol ≠ "," ∧
      rule.symbol ≠ ":" := by
  cases rule with
  | binary op => cases op <;> decide
  | assign op => cases op <;> decide
  | step op => cases op <;> decide
  | access | lookup | call | choice => decide

theorem demand_eq_ok {symbol : String} {s : Span} {o : Token} {rest : List Token}
    (isOp : o.isOperator symbol = true) : demand symbol ⟨s, o :: rest⟩ = .ok ⟨o.span, rest⟩ := by
  simp [demand, Cursor.isAt, Cursor.next, isOp]

theorem limited_eq_ok {limit : Nat} {t : Tree} (within : t.depth ≤ limit) :
    limited limit t = .ok t := by
  rw [limited, if_neg (by omega)]

section Chain

variable {d : Dialect} {limit : Nat} {inner : Nat → Step Tree} {min bound : Nat} {left : Tree}

theorem chain_of_closed {c : Cursor} (closed : Closed d min c.rest) :
    chain d limit inner min bound left c = .ok (left, c) := by
  unfold chain
  split
  · rfl
  · next p rule found => rw [if_pos (closed p rule found)]

variable (limit inner left) in
theorem chain_of_rule {assigning : Bool} (standard : d.Standard assigning) (s : Span) {o : Token}
    {after : List Token} {rule : FollowingRule} (isOp : o.isOperator rule.symbol = true)
    (allowed : rule.isAssign = true → assigning = true) (taken : min < rule.power.left)
    (enough : after.length + 1 ≤ bound) :
    ∃ bound', after.length ≤ bound' ∧
      chain d limit inner min bound left ⟨s, o :: after⟩ =
        (followed limit inner left rule.power rule ⟨o.span, after⟩).bind fun (left, c) =>
          chain d limit inner min bound' left c := by
  obtain _ | bound := bound
  · omega
  refine ⟨bound, by omega, ?_⟩
  rw [chain, (following?_eq_some_iff standard).mpr ⟨isOp, rfl, allowed⟩]
  dsimp only
  rw [if_neg (by omega)]
  rfl

end Chain

end Parser

variable {assigning : Bool} {d : Dialect} {limit : Nat}

@[simp] theorem Tree.depth_over {span : Span} {children : List Tree} :
    (Mark.over span children).depth = 1 + greatest (children.map Tree.depth) := rfl

/-- A tree whose mark is over other trees is deeper than they are. -/
theorem Tree.depth_le_of_over {span : Span} {children : List Tree} {t : Tree} {room : Nat}
    (deep : (Mark.over span children).depth ≤ room + 1) (child : t ∈ children) :
    t.depth ≤ room := by
  rw [Tree.depth_over] at deep
  have bounded : greatest (children.map Tree.depth) ≤ room := by omega
  exact greatest_le_iff.mp bounded _ (List.mem_map_of_mem child)

theorem Derivation.depth_pos {l : Level} (k : Derivation assigning l) : 0 < (k.tree d).depth := by
  match k with
  | .lift _ inner => exact inner.depth_pos
  | .name t _ =>
    simp only [tree, resolve]
    split
    · simp [Tree.depth, Tree.mark]
    · split <;> simp [Tree.depth, Tree.mark]
  | .assign .. | .choice .. | .chain .. | .exponent .. | .unary .. | .step .. | .access ..
  | .lookup .. | .invoke .. | .call .. | .literal .. | .group .. | .template .. =>
    simp only [tree, Tree.depth, Tree.mark, Tree.depth_over]
    omega

/-- Parsing at a power reads the phrase, and goes on with the operators behind it. -/
def Derivation.Continues (d : Dialect) (limit : Nat) {l : Level} (k : Derivation assigning l) :
    Prop :=
  ∀ room min s rest, min < l.power.left → (k.tree d).depth ≤ room + 1 → room + 1 ≤ limit →
    Closed d l.power.right rest →
    ∃ bound, rest.length ≤ bound ∧
      expression d limit (room + 1) min ⟨s, k.tokens ++ rest⟩ =
        Parser.chain d limit (expression d limit room) min bound (k.tree d) ⟨k.last.span, rest⟩

/-- Reading an expression at a power reads the phrase. -/
def Derivation.ReadAt (d : Dialect) (inner : Nat → Step Tree) (power : Nat) {l : Level}
    (k : Derivation assigning l) : Prop :=
  ∀ s rest, Closed d power rest →
    inner power ⟨s, k.tokens ++ rest⟩ = .ok (k.tree d, ⟨k.last.span, rest⟩)

theorem Derivation.Continues.readAt {l : Level} {k : Derivation assigning l}
    (continues : k.Continues d limit) {room min : Nat} (low : min < l.power.left)
    (high : min ≤ l.power.right) (deep : (k.tree d).depth ≤ room) (within : room ≤ limit) :
    k.ReadAt d (expression d limit room) min := by
  intro s rest closed
  obtain _ | room := room
  · have := k.depth_pos (d := d)
    omega
  obtain ⟨bound, _, same⟩ := continues room min s rest low deep within (closed.mono high)
  rw [same, chain_of_closed closed]

/-- An operator behind a phrase that takes it as its operand. -/
theorem Derivation.Continues.extend (standard : d.Standard assigning) {l : Level}
    {left : Derivation assigning l} (continues : left.Continues d limit) {room min : Nat} {s : Span}
    {o : Token} {after rest : List Token} {rule : FollowingRule} {tree : Tree} {last : Span}
    (isOp : o.isOperator rule.symbol = true) (allowed : rule.isAssign = true → assigning = true)
    (taken : min < rule.power.left) (finds : rule.power.left ≤ l.power.right)
    (low : min < l.power.left) (deep : (left.tree d).depth ≤ room + 1) (within : room + 1 ≤ limit)
    (reads : followed limit (expression d limit room) (left.tree d) rule.power rule
      ⟨o.span, after⟩ = .ok (tree, ⟨last, rest⟩))
    (shorter : rest.length ≤ after.length) :
    ∃ bound, rest.length ≤ bound ∧
      expression d limit (room + 1) min ⟨s, left.tokens ++ o :: after⟩ =
        Parser.chain d limit (expression d limit room) min bound tree ⟨last, rest⟩ := by
  have closed : Closed d l.power.right (o :: after) :=
    closed_of_rule standard isOp allowed finds
  obtain ⟨bound, enough, same⟩ := continues room min s (o :: after) low deep within closed
  obtain ⟨bound', enough', step⟩ := chain_of_rule limit (expression d limit room)
    (left.tree d) standard left.last.span isOp allowed taken enough
  refine ⟨bound', by omega, ?_⟩
  rw [same, step, reads]
  rfl

/-- What stands for an operand by itself. -/
theorem Derivation.continues_of_operand {l : Level} {k : Derivation assigning l}
    (reads : ∀ room s rest, (k.tree d).depth ≤ room + 1 → room + 1 ≤ limit →
      Closed d l.power.right rest →
      operand d limit (expression d limit room) ⟨s, k.tokens ++ rest⟩ =
        .ok (k.tree d, ⟨k.last.span, rest⟩)) : k.Continues d limit := by
  intro room min s rest low deep within closed
  refine ⟨rest.length, Nat.le_refl _, ?_⟩
  rw [expression, reads room s rest deep within closed]
  rfl

theorem operand_of_opening (standard : d.Standard assigning) {inner : Nat → Step Tree} {s : Span}
    {o : Token} {after : List Token} {rule : OpeningRule} (isOp : o.isOperator rule.symbol = true) :
    operand d limit inner ⟨s, o :: after⟩ = opened limit inner o.span rule ⟨o.span, after⟩ := by
  obtain ⟨kind, text⟩ := Token.isOperator_iff.mp isOp
  simp only [operand, kind, (standard.opening o.text rule).mpr text.symm]
  rfl

namespace Derivation

theorem continues_literal {t : Token} (isLiteral : t.kind = .literal) :
    (Derivation.literal t isLiteral : Derivation assigning _).Continues d limit := by
  refine continues_of_operand fun room s rest _ _ _ => ?_
  simp only [tokens, List.singleton_append, operand, isLiteral]
  rfl

theorem continues_name {t : Token} (isName : t.kind = .identifier) :
    (Derivation.name t isName : Derivation assigning _).Continues d limit := by
  refine continues_of_operand fun room s rest _ _ _ => ?_
  simp only [tokens, List.singleton_append, operand, isName]
  rfl

theorem continues_unary (standard : d.Standard assigning) {op : UnaryOp} {o : Token}
    (isOp : o.isOperator op.symbol = true) {k : Derivation assigning .unary}
    (continues : k.Continues d limit) : (Derivation.unary op o isOp k).Continues d limit := by
  refine continues_of_operand fun room s rest deep within closed => ?_
  rw [tree] at deep
  have reads : k.ReadAt d (expression d limit room) Power.unaryOperand :=
    continues.readAt (by decide) (by decide) (Tree.depth_le_of_over deep (by simp)) (by omega)
  have opens : o.isOperator (OpeningRule.unary op).symbol = true := isOp
  rw [tokens, List.cons_append, operand_of_opening standard opens]
  simp only [opened, bind, Except.bind, reads _ _ closed, limited_eq_ok (Nat.le_trans deep within)]
  rfl

theorem continues_group (standard : d.Standard assigning) {o c : Token}
    (isOpen : o.isOperator "(" = true) (isClose : c.isOperator ")" = true)
    {k : Derivation assigning .assignment} (continues : k.Continues d limit) :
    (Derivation.group o isOpen k c isClose).Continues d limit := by
  refine continues_of_operand fun room s rest deep within _ => ?_
  rw [tree] at deep
  have reads : k.ReadAt d (expression d limit room) Power.loosest :=
    continues.readAt (by decide) (by decide) (Tree.depth_le_of_over deep (by simp)) (by omega)
  have opens : o.isOperator OpeningRule.group.symbol = true := isOpen
  have closes : Closed d Power.loosest (c :: rest) :=
    closed_of_symbol standard isClose (fun rule => (symbol_ne_closing rule).1) _
  rw [tokens, List.cons_append, List.append_assoc, operand_of_opening standard opens]
  simp only [List.singleton_append, opened, bind, Except.bind, reads _ _ closes,
    demand_eq_ok isClose, limited_eq_ok (Nat.le_trans deep within)]
  rfl

/-- An infix operator and the phrases around it. -/
theorem continues_chain (standard : d.Standard assigning) {l : Level} {op : BinaryOp}
    (atLevel : op.level = l) (chains : l ≠ .exponentiation) {left : Derivation assigning l}
    {o : Token} (isOp : o.isOperator op.symbol = true) {right : Derivation assigning l.next}
    (continuesLeft : left.Continues d limit) (continuesRight : right.Continues d limit) :
    (Derivation.chain op atLevel chains left o isOp right).Continues d limit := by
  intro room min s rest low deep within closed
  rw [tree] at deep
  obtain ⟨same, lower, higher⟩ := Level.power_of_chain atLevel chains
  have shallow : (left.tree d).depth ≤ room + 1 :=
    Nat.le_succ_of_le (Tree.depth_le_of_over deep (by simp))
  have reads : right.ReadAt d (expression d limit room) l.power.right :=
    continuesRight.readAt lower higher (Tree.depth_le_of_over deep (by simp)) (by omega)
  have isRule : o.isOperator (FollowingRule.binary op).symbol = true := isOp
  have power : (FollowingRule.binary op).power = l.power := by rw [FollowingRule.power, atLevel]
  rw [tokens, List.append_assoc, List.cons_append]
  refine continuesLeft.extend standard isRule (by simp [FollowingRule.isAssign])
    (by rwa [power]) (by rw [power]; omega) low shallow within ?_ (by simp)
  simp only [followed, power, bind, Except.bind, reads _ _ closed,
    limited_eq_ok (Nat.le_trans deep within)]
  rfl

theorem continues_exponent (standard : d.Standard assigning) {base : Derivation assigning .unary}
    {o : Token} (isOp : o.isOperator "^" = true) {power : Derivation assigning .exponentiation}
    (continuesBase : base.Continues d limit) (continuesPower : power.Continues d limit) :
    (Derivation.exponent base o isOp power).Continues d limit := by
  intro room min s rest low deep within closed
  rw [tree] at deep
  have shallow : (base.tree d).depth ≤ room + 1 :=
    Nat.le_succ_of_le (Tree.depth_le_of_over deep (by simp))
  have reads : power.ReadAt d (expression d limit room) Power.exponentiation.right :=
    continuesPower.readAt (by decide) (by decide) (Tree.depth_le_of_over deep (by simp)) (by omega)
  have isRule : o.isOperator (FollowingRule.binary .exponent).symbol = true := isOp
  rw [tokens, List.append_assoc, List.cons_append]
  refine continuesBase.extend standard isRule (by simp [FollowingRule.isAssign]) low (by decide)
    (Nat.lt_trans low (by decide)) shallow within ?_ (by simp)
  simp only [followed, FollowingRule.power, BinaryOp.level, Level.power, bind, Except.bind,
    reads _ _ closed, limited_eq_ok (Nat.le_trans deep within)]
  rfl

theorem continues_assign (standard : d.Standard assigning) {op : AssignOp}
    (allowed : assigning = true) {target : Derivation assigning .choice} {o : Token}
    (isOp : o.isOperator op.symbol = true) {value : Derivation assigning .assignment}
    (continuesTarget : target.Continues d limit) (continuesValue : value.Continues d limit) :
    (Derivation.assign op allowed target o isOp value).Continues d limit := by
  intro room min s rest low deep within closed
  rw [tree] at deep
  have shallow : (target.tree d).depth ≤ room + 1 :=
    Nat.le_succ_of_le (Tree.depth_le_of_over deep (by simp))
  have reads : value.ReadAt d (expression d limit room) Power.assignment.right :=
    continuesValue.readAt (by decide) (by decide) (Tree.depth_le_of_over deep (by simp)) (by omega)
  have isRule : o.isOperator (FollowingRule.assign op).symbol = true := isOp
  rw [tokens, List.append_assoc, List.cons_append]
  refine continuesTarget.extend standard isRule (fun _ => allowed) low
    (show Power.assignment.left ≤ Level.choice.power.right by decide)
    (Nat.lt_trans low (by decide)) shallow within ?_ (by simp)
  simp only [followed, FollowingRule.power, bind, Except.bind, reads _ _ closed,
    limited_eq_ok (Nat.le_trans deep within)]
  rfl

theorem continues_choice (standard : d.Standard assigning)
    {condition : Derivation assigning .disjunction} {o : Token} (isOp : o.isOperator "?" = true)
    {yes : Derivation assigning .choice} {colon : Token} (isColon : colon.isOperator ":" = true)
    {no : Derivation assigning .choice} (continuesCondition : condition.Continues d limit)
    (continuesYes : yes.Continues d limit) (continuesNo : no.Continues d limit) :
    (Derivation.choice condition o isOp yes colon isColon no).Continues d limit := by
  intro room min s rest low deep within closed
  rw [tree] at deep
  have shallow : (condition.tree d).depth ≤ room + 1 :=
    Nat.le_succ_of_le (Tree.depth_le_of_over deep (by simp))
  have readsYes : yes.ReadAt d (expression d limit room) Power.choice.right :=
    continuesYes.readAt (by decide) (by decide) (Tree.depth_le_of_over deep (by simp)) (by omega)
  have readsNo : no.ReadAt d (expression d limit room) Power.choice.right :=
    continuesNo.readAt (by decide) (by decide) (Tree.depth_le_of_over deep (by simp)) (by omega)
  have isRule : o.isOperator FollowingRule.choice.symbol = true := isOp
  have closes : Closed d Power.choice.right (colon :: (no.tokens ++ rest)) :=
    closed_of_symbol standard isColon (fun rule => (symbol_ne_closing rule).2.2.2.2) _
  rw [tokens, List.append_assoc, List.cons_append, List.append_assoc, List.cons_append]
  refine continuesCondition.extend standard isRule (by simp [FollowingRule.isAssign]) low
    (by decide) (Nat.lt_trans low (by decide)) shallow within ?_ (by simp; omega)
  simp only [followed, FollowingRule.power, bind, Except.bind, readsYes _ _ closes,
    demand_eq_ok isColon, readsNo _ _ closed, limited_eq_ok (Nat.le_trans deep within)]
  rfl

theorem continues_lift {l : Level} (loose : l ≠ .primary) {k : Derivation assigning l.next}
    (continues : k.Continues d limit) : (Derivation.lift loose k).Continues d limit := by
  intro room min s rest low deep within closed
  have tighter := l.power_le_next
  exact continues room min s rest (Nat.lt_of_lt_of_le low tighter.1) deep within
    (closed.mono tighter.2)

/-- A suffix: its operator is taken at every power at which its operand is. -/
theorem continues_suffix (standard : d.Standard assigning) {k : Derivation assigning .suffixed}
    {operand : Derivation assigning .suffixed} {o : Token} {after : List Token}
    {rule : FollowingRule} (isOp : o.isOperator rule.symbol = true)
    (suffix : rule.operand = .suffixed) (derived : k.tokens = operand.tokens ++ o :: after)
    (continues : operand.Continues d limit)
    (deeper : (operand.tree d).depth < (k.tree d).depth)
    (reads : ∀ room rest, (k.tree d).depth ≤ room + 1 → room + 1 ≤ limit →
      followed limit (expression d limit room) (operand.tree d) rule.power rule
        ⟨o.span, after ++ rest⟩ = .ok (k.tree d, ⟨k.last.span, rest⟩)) :
    k.Continues d limit := by
  intro room min s rest low deep within closed
  obtain ⟨notAssign, lower, higher⟩ := rule.power_of_suffix suffix
  rw [derived, List.append_assoc, List.cons_append]
  exact continues.extend standard isOp (by simp [notAssign]) (Nat.lt_of_lt_of_le low lower) higher
    low (by omega) within (reads room rest deep within) (by simp)

theorem continues_step (standard : d.Standard assigning) {op : StepOp}
    {k : Derivation assigning .suffixed} {o : Token} (isOp : o.isOperator op.symbol = true)
    (continues : k.Continues d limit) : (Derivation.step op k o isOp).Continues d limit := by
  have isRule : o.isOperator (FollowingRule.step op).symbol = true := isOp
  refine continues_suffix standard isRule rfl rfl continues ?_ fun room rest deep within => ?_
  · simp [tree, Tree.depth, Tree.mark]
  · rw [tree] at deep
    simp only [followed, List.nil_append, bind, Except.bind,
      limited_eq_ok (Nat.le_trans deep within)]
    rfl

theorem continues_access (standard : d.Standard assigning) {k : Derivation assigning .suffixed}
    {o field : Token} (isOp : o.isOperator "." = true) (isName : field.kind = .identifier)
    (continues : k.Continues d limit) :
    (Derivation.access k o isOp field isName).Continues d limit := by
  have isRule : o.isOperator FollowingRule.access.symbol = true := isOp
  refine continues_suffix standard isRule rfl rfl continues ?_ fun room rest deep within => ?_
  · simp [tree, Tree.depth, Tree.mark]
  · rw [tree] at deep
    simp only [followed, Parser.identifier, List.singleton_append, if_pos isName, bind, Except.bind,
      limited_eq_ok (Nat.le_trans deep within)]
    rfl

theorem continues_lookup (standard : d.Standard assigning) {k : Derivation assigning .suffixed}
    {o c : Token} (isOpen : o.isOperator "[" = true) {key : Derivation assigning .assignment}
    (isClose : c.isOperator "]" = true) (continues : k.Continues d limit)
    (continuesKey : key.Continues d limit) :
    (Derivation.lookup k o isOpen key c isClose).Continues d limit := by
  have isRule : o.isOperator FollowingRule.lookup.symbol = true := isOpen
  refine continues_suffix standard isRule rfl rfl continues ?_ fun room rest deep within => ?_
  · simp [tree, Tree.depth, Tree.mark]
    omega
  · rw [tree] at deep
    have reads : key.ReadAt d (expression d limit room) Power.loosest :=
      continuesKey.readAt (by decide) (by decide) (Tree.depth_le_of_over deep (by simp)) (by omega)
    have closes : Closed d Power.loosest (c :: rest) :=
      closed_of_symbol standard isClose (fun rule => (symbol_ne_closing rule).2.1) _
    simp only [followed, List.append_assoc, List.singleton_append, bind, Except.bind,
      reads _ _ closes, demand_eq_ok isClose, limited_eq_ok (Nat.le_trans deep within)]
    rfl

theorem continues_invoke (standard : d.Standard assigning) {k : Derivation assigning .suffixed}
    {o c : Token} (isOpen : o.isOperator "(" = true) (isClose : c.isOperator ")" = true)
    (continues : k.Continues d limit) :
    (Derivation.invoke k o isOpen c isClose).Continues d limit := by
  have isRule : o.isOperator FollowingRule.call.symbol = true := isOpen
  refine continues_suffix standard isRule rfl rfl continues ?_ fun room rest deep within => ?_
  · simp [tree, Tree.depth, Tree.mark]
  · rw [tree] at deep
    simp only [followed, List.singleton_append, Cursor.isAt, isClose, if_true, Cursor.next, bind,
      Except.bind, limited_eq_ok (Nat.le_trans deep within)]
    rfl

end Derivation

theorem Arguments.isAt_closing (args : Arguments assigning) {s : Span} {rest : List Token} :
    (Cursor.mk s (args.tokens ++ rest)).isAt ")" = false := by
  have opening {l : Level} (k : Derivation assigning l) {rest : List Token} :
      (Cursor.mk s (k.tokens ++ rest)).isAt ")" = false := by
    obtain ⟨t, front, same, opens⟩ := k.exists_first
    rw [same, List.cons_append, Cursor.isAt]
    obtain isLiteral | isName | ⟨rule, isOp⟩ := opens
    · simp [Token.isOperator, isLiteral]
    · simp [Token.isOperator, isName]
    · exact Token.isOperator_ne isOp rule.symbol_ne_closing
  cases args with
  | one arg => exact opening arg
  | more arg => rw [tokens, List.append_assoc]; exact opening arg

/-- The arguments of a call are read up to its closing parenthesis. -/
def Arguments.Continues (d : Dialect) (limit : Nat) (args : Arguments assigning) : Prop :=
  ∀ room bound s (c : Token) rest, c.isOperator ")" = true →
    (∀ t ∈ args.trees d, t.depth ≤ room) → room ≤ limit → args.tokens.length ≤ bound →
    arguments (expression d limit room) bound ⟨s, args.tokens ++ c :: rest⟩ =
      .ok (args.trees d, ⟨c.span, rest⟩)

/-- The fragments of a template are read up to its closing backtick. -/
def Fragments.Continues (d : Dialect) (limit : Nat) (fragments : Fragments assigning) : Prop :=
  ∀ room bound s (c : Token) rest, c.isOperator "\x60" = true →
    (∀ t ∈ Part.embeds (fragments.parts d), t.depth ≤ room) → room ≤ limit →
    fragments.tokens.length ≤ bound →
    Parser.parts (expression d limit room) bound ⟨s, fragments.tokens ++ c :: rest⟩ =
      .ok (fragments.parts d, ⟨c.span, rest⟩)

theorem Arguments.continues_one (standard : d.Standard assigning)
    {k : Derivation assigning .assignment} (continues : k.Continues d limit) :
    (Arguments.one k).Continues d limit := by
  intro room bound s c rest isClose shallow within _
  have reads : k.ReadAt d (expression d limit room) Power.loosest :=
    continues.readAt (by decide) (by decide) (shallow _ (by simp [trees])) within
  have closes : Closed d Power.loosest (c :: rest) :=
    closed_of_symbol standard isClose (fun rule => (symbol_ne_closing rule).1) _
  have noComma : c.isOperator "," = false := Token.isOperator_ne isClose (by decide)
  unfold arguments
  simp only [tokens, trees, bind, Except.bind, reads _ _ closes, Cursor.isAt, noComma,
    Bool.false_eq_true, if_false, demand_eq_ok isClose]
  rfl

theorem Arguments.continues_more (standard : d.Standard assigning)
    {k : Derivation assigning .assignment} {comma : Token} (isComma : comma.isOperator "," = true)
    {args : Arguments assigning} (continues : k.Continues d limit)
    (continuesArgs : args.Continues d limit) :
    (Arguments.more k comma isComma args).Continues d limit := by
  intro room bound s c rest isClose shallow within enough
  have reads : k.ReadAt d (expression d limit room) Power.loosest :=
    continues.readAt (by decide) (by decide) (shallow _ (by simp [trees])) within
  have closes : Closed d Power.loosest (comma :: (args.tokens ++ c :: rest)) :=
    closed_of_symbol standard isComma (fun rule => (symbol_ne_closing rule).2.2.2.1) _
  simp only [tokens, List.length_append, List.length_cons] at enough
  obtain _ | bound := bound
  · omega
  have readsArgs := continuesArgs room bound comma.span c rest isClose
    (fun t member => shallow t (by simp [trees, member])) within (by omega)
  unfold arguments
  simp only [tokens, trees, List.append_assoc, List.cons_append, bind, Except.bind,
    reads _ _ closes, Cursor.isAt, isComma, if_true, Cursor.next, readsArgs]
  rfl

theorem Fragments.continues_nil : (Fragments.nil : Fragments assigning).Continues d limit := by
  intro room bound s c rest isClose _ _ _
  unfold Parser.parts
  simp only [tokens, parts, List.nil_append, Cursor.isAt, isClose, if_true, Cursor.next]

theorem Fragments.continues_text {t : Token} (isText : t.kind = .literal)
    {fragments : Fragments assigning} (continues : fragments.Continues d limit) :
    (Fragments.text t isText fragments).Continues d limit := by
  intro room bound s c rest isClose shallow within enough
  simp only [tokens, List.length_cons] at enough
  obtain _ | bound := bound
  · omega
  have reads := continues room bound t.span c rest isClose shallow within (by omega)
  have noMark : t.isOperator "\x60" = false := by simp [Token.isOperator, isText]
  unfold Parser.parts
  simp only [tokens, parts, List.cons_append, Cursor.isAt, noMark, Bool.false_eq_true, if_false,
    part, isText, Cursor.next, bind, Except.bind, reads]
  rfl

theorem Fragments.continues_embed (standard : d.Standard assigning) {o c : Token}
    (isOpen : o.isOperator "\x7b" = true) {k : Derivation assigning .assignment}
    (isClose : c.isOperator "\x7d" = true) {fragments : Fragments assigning}
    (continues : k.Continues d limit) (continuesRest : fragments.Continues d limit) :
    (Fragments.embed o isOpen k c isClose fragments).Continues d limit := by
  intro room bound s mark rest isMark shallow within enough
  simp only [tokens, List.length_append, List.length_cons] at enough
  obtain _ | bound := bound
  · omega
  have reads : k.ReadAt d (expression d limit room) Power.loosest :=
    continues.readAt (by decide) (by decide) (shallow _ (by simp [parts, Part.embeds])) within
  have closes : Closed d Power.loosest (c :: (fragments.tokens ++ mark :: rest)) :=
    closed_of_symbol standard isClose (fun rule => (symbol_ne_closing rule).2.2.1) _
  have readsRest := continuesRest room bound c.span mark rest isMark
    (fun t member => shallow t (by simp [parts, Part.embeds] at member ⊢; exact .inr member)) within
    (by omega)
  have noMark : o.isOperator "\x60" = false := Token.isOperator_ne isOpen (by decide)
  obtain ⟨kind, text⟩ := Token.isOperator_iff.mp isOpen
  unfold Parser.parts
  simp only [tokens, parts, List.append_assoc, List.cons_append, Cursor.isAt, noMark,
    Bool.false_eq_true, if_false, part, kind, text, if_true, Cursor.next, bind, Except.bind,
    reads _ _ closes, demand_eq_ok isClose]
  simp only [pure, Except.pure, readsRest]

namespace Derivation

theorem continues_template (standard : d.Standard assigning) {o c : Token}
    (isOpen : o.isOperator "\x60" = true) {fragments : Fragments assigning}
    (isClose : c.isOperator "\x60" = true) (continues : fragments.Continues d limit) :
    (Derivation.template o isOpen fragments c isClose).Continues d limit := by
  refine continues_of_operand fun room s rest deep within _ => ?_
  rw [tree] at deep
  have opens : o.isOperator OpeningRule.template.symbol = true := isOpen
  have reads := continues room (fragments.tokens ++ c :: rest).length o.span c rest isClose
    (fun t member => Tree.depth_le_of_over deep member) (by omega) (by simp)
  rw [tokens, List.cons_append, List.append_assoc, operand_of_opening standard opens]
  simp only [List.singleton_append, opened, bind, Except.bind, reads,
    limited_eq_ok (Nat.le_trans deep within)]
  rfl

theorem continues_call (standard : d.Standard assigning) {k : Derivation assigning .suffixed}
    {o c : Token} (isOpen : o.isOperator "(" = true) {args : Arguments assigning}
    (isClose : c.isOperator ")" = true) (continues : k.Continues d limit)
    (continuesArgs : args.Continues d limit) :
    (Derivation.call k o isOpen args c isClose).Continues d limit := by
  have isRule : o.isOperator FollowingRule.call.symbol = true := isOpen
  refine continues_suffix standard isRule rfl rfl continues ?_ fun room rest deep within => ?_
  · simp [tree, Tree.depth, Tree.mark]
    omega
  · rw [tree] at deep
    have reads := continuesArgs room (args.tokens ++ c :: rest).length o.span c rest isClose
      (fun t member => Tree.depth_le_of_over deep (by simp [member])) (by omega) (by simp)
    have notEmpty : (Cursor.mk o.span (args.tokens ++ c :: rest)).isAt ")" = false :=
      args.isAt_closing
    simp only [followed, List.append_assoc, List.singleton_append, notEmpty, Bool.false_eq_true,
      if_false, bind, Except.bind, reads, limited_eq_ok (Nat.le_trans deep within)]
    rfl

end Derivation

mutual

theorem Derivation.continues (standard : d.Standard assigning) {l : Level}
    (k : Derivation assigning l) : k.Continues d limit := by
  match k with
  | .lift loose inner => exact Derivation.continues_lift loose (inner.continues standard)
  | .assign _ allowed target _ isOp value =>
    exact Derivation.continues_assign standard allowed isOp (target.continues standard)
      (value.continues standard)
  | .choice condition _ isOp yes _ isColon no =>
    exact Derivation.continues_choice standard isOp isColon (condition.continues standard)
      (yes.continues standard) (no.continues standard)
  | .chain _ atLevel chains left _ isOp right =>
    exact Derivation.continues_chain standard atLevel chains isOp (left.continues standard)
      (right.continues standard)
  | .exponent base _ isOp power =>
    exact Derivation.continues_exponent standard isOp (base.continues standard)
      (power.continues standard)
  | .unary _ _ isOp operand =>
    exact Derivation.continues_unary standard isOp (operand.continues standard)
  | .step _ operand _ isOp =>
    exact Derivation.continues_step standard isOp (operand.continues standard)
  | .access container _ isOp _ isName =>
    exact Derivation.continues_access standard isOp isName (container.continues standard)
  | .lookup container _ isOpen key _ isClose =>
    exact Derivation.continues_lookup standard isOpen isClose (container.continues standard)
      (key.continues standard)
  | .invoke callee _ isOpen _ isClose =>
    exact Derivation.continues_invoke standard isOpen isClose (callee.continues standard)
  | .call callee _ isOpen args _ isClose =>
    exact Derivation.continues_call standard isOpen isClose (callee.continues standard)
      (args.continues standard)
  | .literal _ isLiteral => exact Derivation.continues_literal isLiteral
  | .name _ isName => exact Derivation.continues_name isName
  | .group _ isOpen inner _ isClose =>
    exact Derivation.continues_group standard isOpen isClose (inner.continues standard)
  | .template _ isOpen fragments _ isClose =>
    exact Derivation.continues_template standard isOpen isClose (fragments.continues standard)

theorem Arguments.continues (standard : d.Standard assigning) (args : Arguments assigning) :
    args.Continues d limit := by
  match args with
  | .one arg => exact Arguments.continues_one standard (arg.continues standard)
  | .more arg _ isComma rest =>
    exact Arguments.continues_more standard isComma (arg.continues standard)
      (rest.continues standard)

theorem Fragments.continues (standard : d.Standard assigning) (fragments : Fragments assigning) :
    fragments.Continues d limit := by
  match fragments with
  | .nil => exact Fragments.continues_nil
  | .text _ isText rest => exact Fragments.continues_text isText (rest.continues standard)
  | .embed _ isOpen inner _ isClose rest =>
    exact Fragments.continues_embed standard isOpen isClose (inner.continues standard)
      (rest.continues standard)

end

/-- A derivation that is not too deep is parsed, up to sentinels behind it. -/
theorem Derivation.parseWithin (standard : d.Standard assigning)
    (k : Derivation assigning .assignment) {ts sentinels : List Token}
    (deep : (k.tree d).depth ≤ limit) (derived : Token.significant ts = k.tokens ++ sentinels)
    (ends : ∀ t ∈ sentinels, t.kind = .sentinel) :
    Tree.parseWithin d limit ts = .ok (k.tree d) := by
  have closed : Closed d Power.loosest sentinels := by
    intro p rule found
    cases sentinels with
    | nil => cases found
    | cons t rest =>
      have isSentinel := ends t (by simp)
      simp [Cursor.following?, isSentinel] at found
  have reads : k.ReadAt d (expression d limit limit) Power.loosest :=
    (k.continues standard).readAt (by decide) (by decide) deep (Nat.le_refl _)
  have finished : finish d ⟨k.last.span, sentinels⟩ = .ok () := by
    have dropped : sentinels.dropWhile (fun t => t.kind = .sentinel) = [] := by
      rw [List.dropWhile_eq_nil_iff]
      simpa using ends
    simp only [finish, dropped]
  have present : (Cursor.start ts).rest.isEmpty = false := by
    simp [Cursor.start, derived, k.tokens_ne_nil]
  simp only [Tree.parseWithin, present, Bool.false_eq_true, if_false]
  rw [Cursor.start, derived]
  simp only [bind, Except.bind, reads _ _ closed, finished]
  rfl

end Formulae
