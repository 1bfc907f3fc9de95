import Formulae.Host.Provider
import Formulae.Operator
import Formulae.Span

/-!
Trees of operations.

Every node carries a mark: the bytes of the source it covers, and a depth. The
smart constructor `Mark.over` gives a node the depth of its deepest child and one
more, so that in a tree built with it the depth is the height.
-/

namespace Formulae

/-- The place of a node in the source, and its recorded depth. -/
structure Mark where
  span : Span
  depth : Nat
  deriving DecidableEq, Inhabited, Repr

mutual

inductive Tree where
  /-- A literal with its spelling. -/
  | literal (mark : Mark) (text : String) (value : Value)
  /-- A name with a fixed value. -/
  | constant (mark : Mark) (name : String) (value : Value)
  /-- A name whose value is provided anew at each evaluation. -/
  | provided (mark : Mark) (name : String) (provider : Provider)
  /-- A name that the scope resolves. -/
  | name (mark : Mark) (name : String)
  | group (mark : Mark) (inner : Tree)
  | unary (mark : Mark) (op : UnaryOp) (operand : Tree)
  | binary (mark : Mark) (op : BinaryOp) (left right : Tree)
  | assign (mark : Mark) (op : AssignOp) (target value : Tree)
  /-- A step behind its operand. -/
  | step (mark : Mark) (op : StepOp) (operand : Tree)
  | member (mark : Mark) (container : Tree) (selector : Selector)
  | call (mark : Mark) (callee : Tree) (args : List Tree)
  | choice (mark : Mark) (condition yes no : Tree)
  | template (mark : Mark) (parts : List Part)

/-- What selects a member of a container. -/
inductive Selector where
  | named (s : String)
  /-- A key that is computed. -/
  | keyed (key : Tree)

/-- A piece of a template. -/
inductive Part where
  /-- Free text, decoded. -/
  | text (s : String)
  | embed (tree : Tree)

end

namespace Tree

def mark : Tree → Mark
  | literal m .. | constant m .. | provided m .. | name m .. | group m .. | unary m ..
  | binary m .. | assign m .. | step m .. | member m .. | call m .. | choice m ..
  | template m .. => m

def span (t : Tree) : Span := t.mark.span

def depth (t : Tree) : Nat := t.mark.depth

end Tree

/-- The trees embedded in a template, in order. -/
def Part.embeds (parts : List Part) : List Tree :=
  parts.filterMap fun
    | .text _ => none
    | .embed t => some t

/-- The trees in a selector. -/
def Selector.keys : Selector → List Tree
  | named _ => []
  | keyed key => [key]

/-- The greatest of some numbers, and zero without any. -/
def greatest (ns : List Nat) : Nat := ns.foldr max 0

@[simp] theorem greatest_nil : greatest [] = 0 := rfl

@[simp] theorem greatest_cons (n : Nat) (ns : List Nat) :
    greatest (n :: ns) = max n (greatest ns) := rfl

theorem greatest_le_iff {ns : List Nat} {m : Nat} : greatest ns ≤ m ↔ ∀ n ∈ ns, n ≤ m := by
  induction ns with
  | nil => simp
  | cons n ns ih => rw [greatest_cons, Nat.max_le, ih, List.forall_mem_cons]

/-- The mark of a node over these children. -/
def Mark.over (span : Span) (children : List Tree) : Mark :=
  ⟨span, 1 + greatest (children.map Tree.depth)⟩

namespace Tree

/-- The immediate subtrees, in source order. -/
def children : Tree → List Tree
  | literal .. | constant .. | provided .. | name .. => []
  | group _ t | unary _ _ t | step _ _ t => [t]
  | binary _ _ l r => [l, r]
  | assign _ _ t v => [t, v]
  | member _ t s => t :: s.keys
  | call _ f args => f :: args
  | choice _ c y n => [c, y, n]
  | template _ parts => Part.embeds parts

mutual

/-- The number of nodes on a longest path to a leaf. -/
def height : Tree → Nat
  | literal .. | constant .. | provided .. | name .. => 1
  | group _ t | unary _ _ t | step _ _ t => 1 + height t
  | binary _ _ l r => 1 + max (height l) (height r)
  | assign _ _ t v => 1 + max (height t) (height v)
  | member _ t s => 1 + max (height t) (selectorHeight s)
  | call _ f args => 1 + max (height f) (heights args)
  | choice _ c y n => 1 + max (height c) (max (height y) (height n))
  | template _ parts => 1 + partHeights parts

def selectorHeight : Selector → Nat
  | .named _ => 0
  | .keyed t => height t

def heights : List Tree → Nat
  | [] => 0
  | t :: ts => max (height t) (heights ts)

def partHeights : List Part → Nat
  | [] => 0
  | .text _ :: ps => partHeights ps
  | .embed t :: ps => max (height t) (partHeights ps)

end

mutual

/-- The tree with each span replaced. -/
def mapSpan (f : Span → Span) : Tree → Tree
  | literal m s v => literal { m with span := f m.span } s v
  | constant m s v => constant { m with span := f m.span } s v
  | provided m s p => provided { m with span := f m.span } s p
  | name m s => name { m with span := f m.span } s
  | group m t => group { m with span := f m.span } (mapSpan f t)
  | unary m op t => unary { m with span := f m.span } op (mapSpan f t)
  | binary m op l r => binary { m with span := f m.span } op (mapSpan f l) (mapSpan f r)
  | assign m op t v => assign { m with span := f m.span } op (mapSpan f t) (mapSpan f v)
  | step m op t => step { m with span := f m.span } op (mapSpan f t)
  | member m t s => member { m with span := f m.span } (mapSpan f t) (mapSelectorSpan f s)
  | call m t ts => call { m with span := f m.span } (mapSpan f t) (mapSpans f ts)
  | choice m c y n =>
    choice { m with span := f m.span } (mapSpan f c) (mapSpan f y) (mapSpan f n)
  | template m ps => template { m with span := f m.span } (mapPartSpans f ps)

def mapSelectorSpan (f : Span → Span) : Selector → Selector
  | .named s => .named s
  | .keyed t => .keyed (mapSpan f t)

def mapSpans (f : Span → Span) : List Tree → List Tree
  | [] => []
  | t :: ts => mapSpan f t :: mapSpans f ts

def mapPartSpans (f : Span → Span) : List Part → List Part
  | [] => []
  | .text s :: ps => .text s :: mapPartSpans f ps
  | .embed t :: ps => .embed (mapSpan f t) :: mapPartSpans f ps

end

/-- Two trees that differ in spans only. -/
def SameShape (t u : Tree) : Prop := t.mapSpan (fun _ => default) = u.mapSpan fun _ => default

theorem SameShape.refl (t : Tree) : t.SameShape t := rfl

theorem SameShape.symm {t u : Tree} (h : t.SameShape u) : u.SameShape t := Eq.symm h

theorem SameShape.trans {t u v : Tree} (h : t.SameShape u) (k : u.SameShape v) : t.SameShape v :=
  Eq.trans h k

/-- Names and members can be assigned to. -/
def isAssignable : Tree → Bool
  | name .. | member .. => true
  | _ => false

def isAssignment : Tree → Bool
  | assign .. => true
  | _ => false

end Tree

end Formulae
