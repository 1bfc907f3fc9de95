import Formulae.Proofs.Grammar.Table
import Formulae.Tree.Parser

/-!
Derivations of the stratified grammar.

A derivation at a level is one of the next tighter level or joins phrases with an operator
of the level. It fixes its tokens, and with the names of a dialect its tree.
-/

namespace Formulae

mutual

/-- The derivations at a level, with assignment or without. -/
inductive Derivation (assigning : Bool) : Level → Type
  | lift {l : Level} (loose : l ≠ .primary) (inner : Derivation assigning l.next) :
      Derivation assigning l
  | assign (op : AssignOp) (allowed : assigning = true) (target : Derivation assigning .choice)
      (o : Token) (isOp : o.isOperator op.symbol) (value : Derivation assigning .assignment) :
      Derivation assigning .assignment
  | choice (condition : Derivation assigning .disjunction) (o : Token) (isOp : o.isOperator "?")
      (yes : Derivation assigning .choice) (colon : Token) (isColon : colon.isOperator ":")
      (no : Derivation assigning .choice) : Derivation assigning .choice
  | chain {l : Level} (op : BinaryOp) (atLevel : op.level = l) (chains : l ≠ .exponentiation)
      (left : Derivation assigning l) (o : Token) (isOp : o.isOperator op.symbol)
      (right : Derivation assigning l.next) : Derivation assigning l
  | exponent (base : Derivation assigning .unary) (o : Token) (isOp : o.isOperator "^")
      (power : Derivation assigning .exponentiation) : Derivation assigning .exponentiation
  | unary (op : UnaryOp) (o : Token) (isOp : o.isOperator op.symbol)
      (operand : Derivation assigning .unary) : Derivation assigning .unary
  | step (op : StepOp) (operand : Derivation assigning .suffixed) (o : Token)
      (isOp : o.isOperator op.symbol) : Derivation assigning .suffixed
  | access (container : Derivation assigning .suffixed) (o : Token) (isOp : o.isOperator ".")
      (field : Token) (isName : field.kind = .identifier) : Derivation assigning .suffixed
  | lookup (container : Derivation assigning .suffixed) (o : Token) (isOpen : o.isOperator "[")
      (key : Derivation assigning .assignment) (c : Token) (isClose : c.isOperator "]") :
      Derivation assigning .suffixed
  | invoke (callee : Derivation assigning .suffixed) (o : Token) (isOpen : o.isOperator "(")
      (c : Token) (isClose : c.isOperator ")") : Derivation assigning .suffixed
  | call (callee : Derivation assigning .suffixed) (o : Token) (isOpen : o.isOperator "(")
      (args : Arguments assigning) (c : Token) (isClose : c.isOperator ")") :
      Derivation assigning .suffixed
  | literal (t : Token) (isLiteral : t.kind = .literal) : Derivation assigning .primary
  | name (t : Token) (isName : t.kind = .identifier) : Derivation assigning .primary
  | group (o : Token) (isOpen : o.isOperator "(") (inner : Derivation assigning .assignment)
      (c : Token) (isClose : c.isOperator ")") : Derivation assigning .primary
  | template (o : Token) (isOpen : o.isOperator "\x60") (fragments : Fragments assigning)
      (c : Token) (isClose : c.isOperator "\x60") : Derivation assigning .primary

/-- One argument or more, between commas. -/
inductive Arguments (assigning : Bool) : Type
  | one (arg : Derivation assigning .assignment) : Arguments assigning
  | more (arg : Derivation assigning .assignment) (comma : Token) (isComma : comma.isOperator ",")
      (rest : Arguments assigning) : Arguments assigning

/-- The texts and the embedded phrases of a template. -/
inductive Fragments (assigning : Bool) : Type
  | nil : Fragments assigning
  | text (t : Token) (isText : t.kind = .literal) (rest : Fragments assigning) :
      Fragments assigning
  | embed (o : Token) (isOpen : o.isOperator "\x7b") (inner : Derivation assigning .assignment)
      (c : Token) (isClose : c.isOperator "\x7d") (rest : Fragments assigning) :
      Fragments assigning

end

variable {assigning : Bool}

mutual

/-- The tokens derived, in order. -/
@[simp]
def Derivation.tokens {l : Level} : Derivation assigning l → List Token
  | .lift _ inner => inner.tokens
  | .assign _ _ target o _ value => target.tokens ++ o :: value.tokens
  | .choice condition o _ yes colon _ no =>
    condition.tokens ++ o :: (yes.tokens ++ colon :: no.tokens)
  | .chain _ _ _ left o _ right => left.tokens ++ o :: right.tokens
  | .exponent base o _ power => base.tokens ++ o :: power.tokens
  | .unary _ o _ operand => o :: operand.tokens
  | .step _ operand o _ => operand.tokens ++ [o]
  | .access container o _ field _ => container.tokens ++ [o, field]
  | .lookup container o _ key c _ => container.tokens ++ o :: (key.tokens ++ [c])
  | .invoke callee o _ c _ => callee.tokens ++ [o, c]
  | .call callee o _ args c _ => callee.tokens ++ o :: (args.tokens ++ [c])
  | .literal t _ => [t]
  | .name t _ => [t]
  | .group o _ inner c _ => o :: (inner.tokens ++ [c])
  | .template o _ fragments c _ => o :: (fragments.tokens ++ [c])

@[simp]
def Arguments.tokens : Arguments assigning → List Token
  | .one arg => arg.tokens
  | .more arg comma _ rest => arg.tokens ++ comma :: rest.tokens

@[simp]
def Fragments.tokens : Fragments assigning → List Token
  | .nil => []
  | .text t _ rest => t :: rest.tokens
  | .embed o _ inner c _ rest => o :: (inner.tokens ++ c :: rest.tokens)

end

/-- The last token derived. -/
def Derivation.last {l : Level} : Derivation assigning l → Token
  | .lift _ inner => inner.last
  | .assign _ _ _ _ _ value => value.last
  | .choice _ _ _ _ _ _ no => no.last
  | .chain _ _ _ _ _ _ right => right.last
  | .exponent _ _ _ power => power.last
  | .unary _ _ _ operand => operand.last
  | .step _ _ o _ => o
  | .access _ _ _ field _ => field
  | .lookup _ _ _ _ c _ => c
  | .invoke _ _ _ c _ => c
  | .call _ _ _ _ c _ => c
  | .literal t _ => t
  | .name t _ => t
  | .group _ _ _ c _ => c
  | .template _ _ _ c _ => c

/-- The text that a token of a template stands for. -/
def Token.content (t : Token) : String :=
  match t.value with
  | some (.string s) => s
  | _ => t.text

mutual

/-- The tree derived, each node with the place of its tokens. -/
@[simp]
def Derivation.tree (d : Dialect) {l : Level} : Derivation assigning l → Tree
  | .lift _ inner => inner.tree d
  | .assign op _ target _ _ value =>
    .assign (.over ((target.tree d).span.merge value.last.span) [target.tree d, value.tree d]) op
      (target.tree d) (value.tree d)
  | .choice condition _ _ yes _ _ no =>
    .choice (.over ((condition.tree d).span.merge no.last.span)
      [condition.tree d, yes.tree d, no.tree d]) (condition.tree d) (yes.tree d) (no.tree d)
  | .chain op _ _ left _ _ right =>
    .binary (.over ((left.tree d).span.merge right.last.span) [left.tree d, right.tree d]) op
      (left.tree d) (right.tree d)
  | .exponent base _ _ power =>
    .binary (.over ((base.tree d).span.merge power.last.span) [base.tree d, power.tree d])
      .exponent (base.tree d) (power.tree d)
  | .unary op o _ operand =>
    .unary (.over (o.span.merge operand.last.span) [operand.tree d]) op (operand.tree d)
  | .step op operand o _ =>
    .step (.over ((operand.tree d).span.merge o.span) [operand.tree d]) op (operand.tree d)
  | .access container _ _ field _ =>
    .member (.over ((container.tree d).span.merge field.span) [container.tree d])
      (container.tree d) (.named field.text)
  | .lookup container _ _ key c _ =>
    .member (.over ((container.tree d).span.merge c.span) [container.tree d, key.tree d])
      (container.tree d) (.keyed (key.tree d))
  | .invoke callee _ _ c _ =>
    .call (.over ((callee.tree d).span.merge c.span) [callee.tree d]) (callee.tree d) []
  | .call callee _ _ args c _ =>
    .call (.over ((callee.tree d).span.merge c.span) (callee.tree d :: args.trees d))
      (callee.tree d) (args.trees d)
  | .literal t _ => .literal (.over t.span []) t.text (t.value.getD .empty)
  | .name t _ => Parser.resolve d t.text t.span
  | .group o _ inner c _ =>
    .group (.over (o.span.merge c.span) [inner.tree d]) (inner.tree d)
  | .template o _ fragments c _ =>
    .template (.over (o.span.merge c.span) (Part.embeds (fragments.parts d))) (fragments.parts d)

@[simp]
def Arguments.trees (d : Dialect) : Arguments assigning → List Tree
  | .one arg => [arg.tree d]
  | .more arg _ _ rest => arg.tree d :: rest.trees d

@[simp]
def Fragments.parts (d : Dialect) : Fragments assigning → List Part
  | .nil => []
  | .text t _ rest => .text t.content :: rest.parts d
  | .embed _ _ inner _ _ rest => .embed (inner.tree d) :: rest.parts d

end

namespace Derivation

/-- The last token is the last one of the tokens. -/
theorem exists_tokens_eq {l : Level} (k : Derivation assigning l) :
    ∃ front, k.tokens = front ++ [k.last] := by
  match k with
  | .lift _ inner => exact inner.exists_tokens_eq
  | .assign _ _ target o _ value =>
    obtain ⟨front, same⟩ := value.exists_tokens_eq
    exact ⟨target.tokens ++ o :: front, by simp [tokens, last, same]⟩
  | .choice condition o _ yes colon _ no =>
    obtain ⟨front, same⟩ := no.exists_tokens_eq
    exact ⟨condition.tokens ++ o :: (yes.tokens ++ colon :: front), by simp [tokens, last, same]⟩
  | .chain _ _ _ left o _ right =>
    obtain ⟨front, same⟩ := right.exists_tokens_eq
    exact ⟨left.tokens ++ o :: front, by simp [tokens, last, same]⟩
  | .exponent base o _ power =>
    obtain ⟨front, same⟩ := power.exists_tokens_eq
    exact ⟨base.tokens ++ o :: front, by simp [tokens, last, same]⟩
  | .unary _ o _ operand =>
    obtain ⟨front, same⟩ := operand.exists_tokens_eq
    exact ⟨o :: front, by simp [tokens, last, same]⟩
  | .step _ operand _ _ => exact ⟨operand.tokens, rfl⟩
  | .access container o _ _ _ => exact ⟨container.tokens ++ [o], by simp [tokens, last]⟩
  | .lookup container o _ key _ _ =>
    exact ⟨container.tokens ++ o :: key.tokens, by simp [tokens, last]⟩
  | .invoke callee o _ _ _ => exact ⟨callee.tokens ++ [o], by simp [tokens, last]⟩
  | .call callee o _ args _ _ => exact ⟨callee.tokens ++ o :: args.tokens, by simp [tokens, last]⟩
  | .literal _ _ => exact ⟨[], rfl⟩
  | .name _ _ => exact ⟨[], rfl⟩
  | .group o _ inner _ _ => exact ⟨o :: inner.tokens, by simp [tokens, last]⟩
  | .template o _ fragments _ _ => exact ⟨o :: fragments.tokens, by simp [tokens, last]⟩

theorem tokens_ne_nil {l : Level} (k : Derivation assigning l) : k.tokens ≠ [] := by
  obtain ⟨front, same⟩ := k.exists_tokens_eq
  simp [same]

theorem last_ne_sentinel {l : Level} (k : Derivation assigning l) : k.last.kind ≠ .sentinel := by
  have operator {t : Token} {s : String} (isOp : t.isOperator s = true) : t.kind ≠ .sentinel := by
    rw [(Token.isOperator_iff.mp isOp).1]
    simp
  match k with
  | .lift _ inner => exact inner.last_ne_sentinel
  | .assign _ _ _ _ _ value => exact value.last_ne_sentinel
  | .choice _ _ _ _ _ _ no => exact no.last_ne_sentinel
  | .chain _ _ _ _ _ _ right => exact right.last_ne_sentinel
  | .exponent _ _ _ power => exact power.last_ne_sentinel
  | .unary _ _ _ operand => exact operand.last_ne_sentinel
  | .step _ _ _ isOp => exact operator isOp
  | .access _ _ _ _ isName => simp [last, isName]
  | .lookup _ _ _ _ _ isClose => exact operator isClose
  | .invoke _ _ _ _ isClose => exact operator isClose
  | .call _ _ _ _ _ isClose => exact operator isClose
  | .literal _ isLiteral => simp [last, isLiteral]
  | .name _ isName => simp [last, isName]
  | .group _ _ _ _ isClose => exact operator isClose
  | .template _ _ _ _ isClose => exact operator isClose

/-- A phrase starts with a literal, a name or an operator that opens one. -/
theorem exists_first {l : Level} (k : Derivation assigning l) :
    ∃ t rest, k.tokens = t :: rest ∧ (t.kind = .literal ∨ t.kind = .identifier ∨
      ∃ rule : OpeningRule, t.isOperator rule.symbol = true) := by
  match k with
  | .lift _ inner => exact inner.exists_first
  | .assign _ _ left _ _ _ | .choice left _ _ _ _ _ _ | .chain _ _ _ left _ _ _
  | .exponent left _ _ _ | .step _ left _ _ | .access left _ _ _ _ | .lookup left _ _ _ _ _
  | .invoke left _ _ _ _ | .call left _ _ _ _ _ =>
    obtain ⟨t, rest, same, opens⟩ := left.exists_first
    exact ⟨t, _, by rw [tokens, same]; rfl, opens⟩
  | .unary op o isOp operand => exact ⟨o, _, rfl, .inr (.inr ⟨.unary op, isOp⟩)⟩
  | .literal t isLiteral => exact ⟨t, [], rfl, .inl isLiteral⟩
  | .name t isName => exact ⟨t, [], rfl, .inr (.inl isName)⟩
  | .group o isOpen _ _ _ => exact ⟨o, _, rfl, .inr (.inr ⟨.group, isOpen⟩)⟩
  | .template o isOpen _ _ _ => exact ⟨o, _, rfl, .inr (.inr ⟨.template, isOpen⟩)⟩

end Derivation

end Formulae
