import Formulae.Proofs.Spelling.Negation
import Formulae.Tree.Printer

/-!
What the text of a tree reads as, up to marks.

The text of a minus sign before a number reads as one literal. This reaches through the
members, the steps and the calls behind the number.
-/

namespace Formulae

/-- Whether the text starts with a number that has no sign of its own. -/
def Tree.numeralHead : Tree → Bool
  | literal _ text _ =>
    match text.toList with
    | c :: _ => c.isDigit || c == '.'
    | [] => false
  | step _ _ t | member _ t _ | call _ t _ => t.numeralHead
  | _ => false

mutual

/-- What the text of the first tree reads as; if `signed`, behind a minus sign that
joins the number at its front. -/
inductive Tree.Respelled : Bool → Tree → Tree → Prop
  | literal {m m' : Mark} {text : String} {value : Value} :
      Tree.Respelled false (.literal m text value) (.literal m' text value)
  | negated {m m' : Mark} {text : String} {value value' : Value}
      (opens : (Tree.literal m text value).numeralHead = true)
      (opposite : value.Opposite value') :
      Tree.Respelled true (.literal m text value) (.literal m' ("-" ++ text) value')
  | constant {m m' : Mark} {s : String} {value : Value} :
      Tree.Respelled false (.constant m s value) (.constant m' s value)
  | provided {m m' : Mark} {s : String} {provider : Provider} :
      Tree.Respelled false (.provided m s provider) (.provided m' s provider)
  | name {m m' : Mark} {s : String} : Tree.Respelled false (.name m s) (.name m' s)
  | group {m m' : Mark} {t u : Tree} (inner : Tree.Respelled false t u) :
      Tree.Respelled false (.group m t) (.group m' u)
  | unary {m m' : Mark} {op : UnaryOp} {t u : Tree}
      (apart : op = .negate → t.numeralHead = false) (operand : Tree.Respelled false t u) :
      Tree.Respelled false (.unary m op t) (.unary m' op u)
  | joined {m : Mark} {t u : Tree} (operand : Tree.Respelled true t u) :
      Tree.Respelled false (.unary m .negate t) u
  | binary {m m' : Mark} {op : BinaryOp} {l r l' r' : Tree} (left : Tree.Respelled false l l')
      (right : Tree.Respelled false r r') :
      Tree.Respelled false (.binary m op l r) (.binary m' op l' r')
  | assign {m m' : Mark} {op : AssignOp} {t v t' v' : Tree} (target : Tree.Respelled false t t')
      (value : Tree.Respelled false v v') :
      Tree.Respelled false (.assign m op t v) (.assign m' op t' v')
  | step {signed : Bool} {m m' : Mark} {op : StepOp} {t u : Tree}
      (operand : Tree.Respelled signed t u) : Tree.Respelled signed (.step m op t) (.step m' op u)
  | member {signed : Bool} {m m' : Mark} {t u : Tree} {s s' : Selector}
      (container : Tree.Respelled signed t u) (selector : Selector.Respelled s s') :
      Tree.Respelled signed (.member m t s) (.member m' u s')
  | call {signed : Bool} {m m' : Mark} {t u : Tree} {ts us : List Tree}
      (callee : Tree.Respelled signed t u) (args : Tree.AllRespelled ts us) :
      Tree.Respelled signed (.call m t ts) (.call m' u us)
  | choice {m m' : Mark} {c y n c' y' n' : Tree} (condition : Tree.Respelled false c c')
      (yes : Tree.Respelled false y y') (no : Tree.Respelled false n n') :
      Tree.Respelled false (.choice m c y n) (.choice m' c' y' n')
  | template {m m' : Mark} {ps qs : List Part} (parts : Part.AllRespelled ps qs) :
      Tree.Respelled false (.template m ps) (.template m' qs)

inductive Selector.Respelled : Selector → Selector → Prop
  | named {s : String} : Selector.Respelled (.named s) (.named s)
  | keyed {t u : Tree} (key : Tree.Respelled false t u) : Selector.Respelled (.keyed t) (.keyed u)

inductive Tree.AllRespelled : List Tree → List Tree → Prop
  | nil : Tree.AllRespelled [] []
  | cons {t u : Tree} {ts us : List Tree} (first : Tree.Respelled false t u)
      (others : Tree.AllRespelled ts us) : Tree.AllRespelled (t :: ts) (u :: us)

inductive Part.AllRespelled : List Part → List Part → Prop
  | nil : Part.AllRespelled [] []
  | text {s : String} {ps qs : List Part} (others : Part.AllRespelled ps qs) :
      Part.AllRespelled (.text s :: ps) (.text s :: qs)
  | embed {t u : Tree} {ps qs : List Part} (first : Tree.Respelled false t u)
      (others : Part.AllRespelled ps qs) : Part.AllRespelled (.embed t :: ps) (.embed u :: qs)

end

namespace Tree

/-- The minus sign that is joined, if any. -/
def sign (signed : Bool) : List Char := if signed then ['-'] else []

@[simp] theorem sign_false : sign false = [] := rfl

@[simp] theorem sign_true : sign true = ['-'] := rfl

theorem exists_first_of_numeralHead {t : Tree} (opens : t.numeralHead = true) :
    ∃ c cs, t.chars = c :: cs ∧ (c.isDigit = true ∨ c = '.') := by
  match t with
  | .literal _ text _ =>
    rw [numeralHead] at opens
    rw [chars]
    split at opens
    · next c cs spelled => exact ⟨c, cs, spelled, by simpa using opens⟩
    · cases opens
  | .step _ _ inner | .member _ inner _ | .call _ inner _ =>
    obtain ⟨c, cs, spelled, first⟩ := exists_first_of_numeralHead (t := inner) opens
    exact ⟨c, _, by rw [chars, spelled]; rfl, first⟩

theorem prepend_of_numeralHead {t : Tree} (opens : t.numeralHead = true) (symbol : List Char) :
    prepend symbol t.chars = symbol ++ t.chars := by
  obtain ⟨c, cs, spelled, first⟩ := exists_first_of_numeralHead opens
  rw [spelled, prepend]
  · rintro _ ⟨⟩
    exact absurd first (by decide)
  · rintro _ ⟨⟩
    exact absurd first (by decide)

theorem Respelled.numeralHead {t u : Tree} {signed : Bool} (respelled : Respelled signed t u)
    (isSigned : signed = true) : t.numeralHead = true := by
  match respelled with
  | .negated opens _ => exact opens
  | .step operand => exact operand.numeralHead isSigned
  | .member container _ => exact container.numeralHead isSigned
  | .call callee _ => exact callee.numeralHead isSigned

end Tree

mutual

/-- A tree and what its text reads as have the same text. -/
theorem Tree.Respelled.chars {t u : Tree} {signed : Bool} (respelled : Tree.Respelled signed t u) :
    u.chars = Tree.sign signed ++ t.chars := by
  match respelled with
  | .literal | .constant | .provided | .name => rfl
  | .negated _ _ => simp [Tree.chars]
  | .group inner => simp [Tree.chars, inner.chars]
  | .unary _ operand => simp [Tree.chars, operand.chars]
  | .joined operand =>
    rw [operand.chars, Tree.sign_false, List.nil_append, Tree.chars,
      Tree.prepend_of_numeralHead (operand.numeralHead rfl)]
    rfl
  | .binary left right => simp [Tree.chars, left.chars, right.chars]
  | .assign target value => simp [Tree.chars, target.chars, value.chars]
  | .step operand => simp [Tree.chars, operand.chars]
  | .member container selector => simp [Tree.chars, container.chars, selector.chars]
  | .call callee args => simp [Tree.chars, callee.chars, args.chars]
  | .choice condition yes no => simp [Tree.chars, condition.chars, yes.chars, no.chars]
  | .template parts => simp [Tree.chars, parts.chars]

theorem Selector.Respelled.chars {s s' : Selector} (respelled : Selector.Respelled s s') :
    Tree.selectorChars s' = Tree.selectorChars s := by
  match respelled with
  | .named => rfl
  | .keyed key => simp [Tree.selectorChars, key.chars]

theorem Tree.AllRespelled.chars {ts us : List Tree} (respelled : Tree.AllRespelled ts us) :
    Tree.argumentChars us = Tree.argumentChars ts := by
  match respelled with
  | .nil => rfl
  | .cons first .nil => simp [Tree.argumentChars, first.chars]
  | .cons first (.cons second others) =>
    simp [Tree.argumentChars, first.chars, (Tree.AllRespelled.cons second others).chars]

theorem Part.AllRespelled.chars {ps qs : List Part} (respelled : Part.AllRespelled ps qs) :
    Tree.partChars qs = Tree.partChars ps := by
  match respelled with
  | .nil => rfl
  | .text others => simp [Tree.partChars, others.chars]
  | .embed first others => simp [Tree.partChars, first.chars, others.chars]

end

theorem Tree.Respelled.text {t u : Tree} (respelled : Tree.Respelled false t u) :
    u.text = t.text := by
  rw [Tree.text, Tree.text, respelled.chars]
  rfl

end Formulae
