import Formulae.Proofs.Grammar.Respan

/-!
Parsing without places.

The parser looks at no span. From tokens without their places it makes the same tree or reports
the same error, without places too.
-/

namespace Formulae

open Formulae.Parser

/-- The token at no place in particular. -/
def Token.unplaced (t : Token) : Token := { t with span := default }

/-- The tree without places. For two trees of the same shape it is the same. -/
def Tree.unplaced (t : Tree) : Tree := t.mapSpan fun _ => default

def Part.unplaced : Part → Part
  | text s => text s
  | embed t => embed t.unplaced

def ParseError.unplaced : ParseError → ParseError
  | unexpectedToken expected actual _ => unexpectedToken expected actual default
  | unexpectedEnd => unexpectedEnd
  | invalidToken token _ => invalidToken token default
  | nestingTooDeep limit => nestingTooDeep limit

def Parser.Cursor.unplaced (c : Cursor) : Cursor := ⟨default, c.rest.map Token.unplaced⟩

/-- What the parser says of tokens, without places. -/
def Parser.unplaced : Except ParseError Tree → Except ParseError Tree
  | .ok t => .ok t.unplaced
  | .error e => .error e.unplaced

namespace Tree

@[simp] theorem depth_unplaced (t : Tree) : t.unplaced.depth = t.depth := depth_mapSpan _ t

@[simp] theorem span_unplaced (t : Tree) : t.unplaced.span = default := span_mapSpan _ t

end Tree

def Mark.unplaced (m : Mark) : Mark := { m with span := default }

@[simp] theorem Mark.unplaced_over (s : Span) (ts : List Tree) :
    (Mark.over s ts).unplaced = .over default (ts.map Tree.unplaced) := by
  simp [Mark.over, Mark.unplaced, Function.comp_def]

@[simp] theorem Part.embeds_unplaced (ps : List Part) :
    (Part.embeds ps).map Tree.unplaced = Part.embeds (ps.map Part.unplaced) := by
  induction ps with
  | nil => rfl
  | cons p ps inductionHypothesis =>
    cases p with
    | text s => simpa [Part.embeds, Part.unplaced] using inductionHypothesis
    | embed t => simpa [Part.embeds, Part.unplaced] using inductionHypothesis

namespace Tree

/-! Each node loses its place, and its subtrees theirs. -/

variable (m : Mark)

@[simp] theorem unplaced_group (t : Tree) :
    (group m t).unplaced = group m.unplaced t.unplaced := rfl

@[simp] theorem unplaced_unary (op : UnaryOp) (t : Tree) :
    (unary m op t).unplaced = unary m.unplaced op t.unplaced := rfl

@[simp] theorem unplaced_binary (op : BinaryOp) (l r : Tree) :
    (binary m op l r).unplaced = binary m.unplaced op l.unplaced r.unplaced := rfl

@[simp] theorem unplaced_assign (op : AssignOp) (t v : Tree) :
    (assign m op t v).unplaced = assign m.unplaced op t.unplaced v.unplaced := rfl

@[simp] theorem unplaced_step (op : StepOp) (t : Tree) :
    (step m op t).unplaced = step m.unplaced op t.unplaced := rfl

@[simp] theorem unplaced_named (t : Tree) (s : String) :
    (member m t (.named s)).unplaced = member m.unplaced t.unplaced (.named s) := rfl

@[simp] theorem unplaced_keyed (t key : Tree) :
    (member m t (.keyed key)).unplaced = member m.unplaced t.unplaced (.keyed key.unplaced) := rfl

@[simp] theorem unplaced_call (t : Tree) (ts : List Tree) :
    (call m t ts).unplaced = call m.unplaced t.unplaced (ts.map unplaced) :=
  congrArg (call m.unplaced t.unplaced) (mapSpans_eq _ ts)

@[simp] theorem unplaced_choice (c y n : Tree) :
    (choice m c y n).unplaced = choice m.unplaced c.unplaced y.unplaced n.unplaced := rfl

@[simp] theorem unplaced_template (ps : List Part) :
    (template m ps).unplaced = template m.unplaced (ps.map Part.unplaced) := by
  refine congrArg (template m.unplaced) ?_
  induction ps with
  | nil => rfl
  | cons p ps inductionHypothesis =>
    cases p <;> exact congrArg (List.cons _) inductionHypothesis

end Tree

namespace Parser

namespace Cursor

variable (c : Cursor)

theorem isAt_unplaced (symbol : String) : c.unplaced.isAt symbol = c.isAt symbol := by
  obtain ⟨s, _ | ⟨t, ts⟩⟩ := c <;> rfl

theorem next_unplaced : c.unplaced.next = c.next.unplaced := by
  obtain ⟨s, _ | ⟨t, ts⟩⟩ := c <;> rfl

theorem unexpected_unplaced (expected : String) :
    c.unplaced.unexpected expected = (c.unexpected expected).unplaced := by
  obtain ⟨s, _ | ⟨t, ts⟩⟩ := c <;> rfl

theorem following?_unplaced (d : Dialect) : c.unplaced.following? d = c.following? d := by
  obtain ⟨s, _ | ⟨t, ts⟩⟩ := c <;> rfl

@[simp] theorem last_unplaced : c.unplaced.last = default := rfl

theorem isEmpty_unplaced : c.unplaced.rest.isEmpty = c.rest.isEmpty := List.isEmpty_map ..

@[simp] theorem length_unplaced : c.unplaced.rest.length = c.rest.length := List.length_map _

end Cursor

/-- A tree is as deep as it is without places. -/
theorem limited_unplaced (limit : Nat) (t : Tree) :
    limited limit t.unplaced = unplaced (limited limit t) := by
  unfold limited
  rw [Tree.depth_unplaced]
  split <;> rfl

/-- The second outcome is the first without places. -/
inductive Blind {α : Type} (erase : α → α) :
    Except ParseError (α × Cursor) → Except ParseError (α × Cursor) → Prop
  | ok (a : α) (c : Cursor) : Blind erase (.ok (a, c)) (.ok (erase a, c.unplaced))
  | error (e : ParseError) : Blind erase (.error e) (.error e.unplaced)

namespace Blind

variable {α β : Type} {erase : α → α} {erase' : β → β}

theorem bind {x y : Except ParseError (α × Cursor)}
    {f g : α × Cursor → Except ParseError (β × Cursor)} (first : Blind erase x y)
    (next : ∀ a c, Blind erase' (f (a, c)) (g (erase a, c.unplaced))) :
    Blind erase' (x >>= f) (y >>= g) := by
  cases first with
  | ok a c => exact next a c
  | error e => exact .error e

theorem ite {p : Prop} [Decidable p] {x y x' y' : Except ParseError (α × Cursor)}
    (yes : Blind erase x y) (no : Blind erase x' y') :
    Blind erase (if p then x else x') (if p then y else y') := by
  split
  · exact yes
  · exact no

/-- A step that is told how many tokens are left. -/
theorem counted {x : Nat → Step α} (blind : ∀ bound c, Blind erase (x bound c) (x bound c.unplaced))
    (c : Cursor) : Blind erase (x c.rest.length c) (x c.unplaced.rest.length c.unplaced) := by
  rw [c.length_unplaced]
  exact blind _ c

theorem unexpected (c : Cursor) (expected : String) :
    Blind erase (.error (c.unexpected expected)) (.error (c.unplaced.unexpected expected)) := by
  rw [c.unexpected_unplaced]
  exact .error _

theorem demand {f g : Cursor → Except ParseError (α × Cursor)} (symbol : String) (c : Cursor)
    (next : ∀ c, Blind erase (f c) (g c.unplaced)) :
    Blind erase (Parser.demand symbol c >>= f) (Parser.demand symbol c.unplaced >>= g) := by
  rw [Parser.demand, Parser.demand, c.isAt_unplaced, c.next_unplaced, c.unexpected_unplaced]
  split
  · exact next _
  · exact .error _

theorem identifier (c : Cursor) :
    Blind id (Parser.identifier c) (Parser.identifier c.unplaced) := by
  obtain ⟨s, _ | ⟨t, ts⟩⟩ := c
  · exact .error _
  · exact ite (.ok t.text ⟨t.span, ts⟩) (.error _)

theorem node (limit : Nat) {t u : Tree} (c : Cursor) (same : t.unplaced = u) :
    Blind Tree.unplaced (do let tree ← limited limit t; return (tree, c))
      (do let tree ← limited limit u; return (tree, c.unplaced)) := by
  subst same
  rw [limited_unplaced]
  cases limited limit t with
  | ok t => exact .ok t c
  | error e => exact .error e

section Rules

variable {d : Dialect} {limit : Nat} {inner : Nat → Step Tree}
  (nested : ∀ min c, Blind Tree.unplaced (inner min c) (inner min c.unplaced))

include nested

theorem part (c : Cursor) :
    Blind Part.unplaced (Parser.part inner c) (Parser.part inner c.unplaced) := by
  obtain ⟨s, _ | ⟨t, ts⟩⟩ := c
  · exact .error _
  · change Blind _ (Parser.part inner ⟨s, t :: ts⟩)
      (Parser.part inner ⟨default, t.unplaced :: ts.map Token.unplaced⟩)
    have kind : t.unplaced.kind = t.kind := rfl
    have text : t.unplaced.text = t.text := rfl
    have value : t.unplaced.value = t.value := rfl
    unfold Parser.part
    dsimp only
    rw [kind, text, value]
    split
    · exact .ok _ ⟨t.span, ts⟩
    · refine ite ?_ (unexpected ⟨s, t :: ts⟩ _)
      exact bind (nested _ ⟨t.span, ts⟩) fun _ c => demand _ c fun _ => .ok _ _
    · exact unexpected ⟨s, t :: ts⟩ _

theorem parts (bound : Nat) (c : Cursor) : Blind (List.map Part.unplaced)
    (Parser.parts inner bound c) (Parser.parts inner bound c.unplaced) := by
  induction bound generalizing c with
  | zero =>
    unfold Parser.parts
    rw [c.isAt_unplaced, c.next_unplaced]
    exact ite (.ok [] _) (.error _)
  | succ bound inductionHypothesis =>
    unfold Parser.parts
    rw [c.isAt_unplaced, c.next_unplaced]
    exact ite (.ok [] _) (bind (part nested c) fun p c =>
      bind (inductionHypothesis c) fun ps c => .ok (p :: ps) c)

theorem arguments (bound : Nat) (c : Cursor) : Blind (List.map Tree.unplaced)
    (Parser.arguments inner bound c) (Parser.arguments inner bound c.unplaced) := by
  induction bound generalizing c with
  | zero =>
    unfold Parser.arguments
    refine bind (nested _ c) fun t c => ?_
    dsimp only
    rw [c.isAt_unplaced]
    exact ite (.error _) (demand _ c fun c => .ok [t] c)
  | succ bound inductionHypothesis =>
    unfold Parser.arguments
    refine bind (nested _ c) fun t c => ?_
    dsimp only
    rw [c.isAt_unplaced, c.next_unplaced]
    exact ite (bind (inductionHypothesis c.next) fun ts c => .ok (t :: ts) c)
      (demand _ c fun c => .ok [t] c)

theorem allParts (bound : Nat) (c : Cursor) : Blind (List.map Part.unplaced)
    (Parser.allParts inner bound c) (Parser.allParts inner bound c.unplaced) := by
  induction bound generalizing c with
  | zero =>
    unfold Parser.allParts
    rw [c.isEmpty_unplaced]
    exact ite (.ok [] c) (.ok [] c)
  | succ bound inductionHypothesis =>
    unfold Parser.allParts
    rw [c.isEmpty_unplaced]
    exact ite (.ok [] c) (bind (part nested c) fun p c =>
      bind (inductionHypothesis c) fun ps c => .ok (p :: ps) c)

theorem opened (start : Span) (rule : OpeningRule) (c : Cursor) :
    Blind Tree.unplaced (Parser.opened limit inner start rule c)
      (Parser.opened limit inner default rule c.unplaced) := by
  cases rule with
  | group => exact bind (nested _ c) fun t c => demand _ c fun c => node limit c (by simp)
  | template => exact bind (counted (parts nested) c) fun ps c => node limit c (by simp)
  | unary op => exact bind (nested _ c) fun t c => node limit c (by simp)

theorem operand (c : Cursor) : Blind Tree.unplaced (Parser.operand d limit inner c)
    (Parser.operand d limit inner c.unplaced) := by
  obtain ⟨s, _ | ⟨t, ts⟩⟩ := c
  · exact .error _
  · change Blind _ (Parser.operand d limit inner ⟨s, t :: ts⟩)
      (Parser.operand d limit inner ⟨default, t.unplaced :: ts.map Token.unplaced⟩)
    have kind : t.unplaced.kind = t.kind := rfl
    have text : t.unplaced.text = t.text := rfl
    have value : t.unplaced.value = t.value := rfl
    unfold Parser.operand
    dsimp only
    rw [kind, text, value]
    split
    · exact .ok (Tree.literal (.over t.span []) t.text (t.value.getD .empty)) ⟨t.span, ts⟩
    · have resolved : resolve d t.text t.unplaced.span = (resolve d t.text t.span).unplaced :=
        (mapSpan_resolve (fun _ => default) d t.text t.span).symm
      rw [resolved]
      exact .ok (resolve d t.text t.span) ⟨t.span, ts⟩
    · split
      · exact opened nested t.span _ ⟨t.span, ts⟩
      · exact .error _
    · exact .error _

theorem followed (left : Tree) (power : Power) (rule : FollowingRule) (c : Cursor) :
    Blind Tree.unplaced (Parser.followed limit inner left power rule c)
      (Parser.followed limit inner left.unplaced power rule c.unplaced) := by
  cases rule with
  | binary op => exact bind (nested _ c) fun t c => node limit c (by simp)
  | assign op => exact bind (nested _ c) fun t c => node limit c (by simp)
  | step op => exact node limit c (by simp)
  | access => exact bind (identifier c) fun s c => node limit c (by simp)
  | lookup => exact bind (nested _ c) fun t c => demand _ c fun c => node limit c (by simp)
  | call =>
    unfold Parser.followed
    dsimp only
    rw [c.isAt_unplaced, c.next_unplaced]
    have none : Blind (List.map Tree.unplaced) (.ok ([], c.next)) (.ok ([], c.next.unplaced)) :=
      .ok [] c.next
    exact ite (bind none fun args c => node limit c (by simp))
      (bind (counted (arguments nested) c) fun args c => node limit c (by simp))
  | choice =>
    exact bind (nested _ c) fun t c => demand _ c fun c => bind (nested _ c) fun u c =>
      node limit c (by simp)

theorem chain (min bound : Nat) (left : Tree) (c : Cursor) :
    Blind Tree.unplaced (Parser.chain d limit inner min bound left c)
      (Parser.chain d limit inner min bound left.unplaced c.unplaced) := by
  induction bound generalizing left c with
  | zero =>
    unfold Parser.chain
    rw [c.following?_unplaced]
    split
    · exact .ok left c
    · exact ite (.ok left c) (.ok left c)
  | succ bound inductionHypothesis =>
    unfold Parser.chain
    rw [c.following?_unplaced, c.next_unplaced]
    split
    · exact .ok left c
    · exact ite (.ok left c) (bind (followed nested left _ _ c.next) inductionHypothesis)

end Rules

theorem expression (d : Dialect) (limit room min : Nat) (c : Cursor) :
    Blind Tree.unplaced (Parser.expression d limit room min c)
      (Parser.expression d limit room min c.unplaced) := by
  induction room generalizing min c with
  | zero => exact .error _
  | succ room inductionHypothesis =>
    refine bind (operand inductionHypothesis c) fun left c => ?_
    dsimp only
    rw [c.length_unplaced]
    exact chain inductionHypothesis _ _ left c

end Blind

/-- What is said of the end of an expression, without places. -/
theorem finish_unplaced (d : Dialect) (c : Cursor) :
    finish d c.unplaced = (finish d c).mapError ParseError.unplaced := by
  have front : (c.unplaced.rest.dropWhile fun t => t.kind = .sentinel) =
      (c.rest.dropWhile fun t => t.kind = .sentinel).map Token.unplaced := by
    rw [Cursor.unplaced, List.dropWhile_map]
    rfl
  unfold finish
  rw [front]
  cases c.rest.dropWhile fun t => t.kind = .sentinel with
  | nil => rfl
  | cons t ts =>
    change (if t.kind = .operator ∧ ¬ d.following.contains t.text then _ else _) =
      Except.mapError _ (if t.kind = .operator ∧ ¬ d.following.contains t.text then _ else _)
    split <;> rfl

theorem start_unplaced (ts : List Token) :
    Cursor.start (ts.map Token.unplaced) = (Cursor.start ts).unplaced := by
  unfold Cursor.start Cursor.unplaced
  rw [Token.significant, List.filter_map]
  rfl

end Parser

namespace Tree

variable (d : Dialect) (limit : Nat) (ts : List Token)

theorem parseWithin_unplaced :
    parseWithin d limit (ts.map Token.unplaced) = Parser.unplaced (parseWithin d limit ts) := by
  unfold parseWithin
  rw [start_unplaced]
  generalize Cursor.start ts = c
  dsimp only
  rw [c.isEmpty_unplaced]
  split
  · rfl
  · have first := Blind.expression d limit limit Power.loosest c
    revert first
    generalize expression d limit limit Power.loosest c = x
    generalize expression d limit limit Power.loosest c.unplaced = y
    rintro (⟨t, c⟩ | e)
    · change (finish d c.unplaced >>= _) = Parser.unplaced (finish d c >>= _)
      rw [finish_unplaced]
      cases finish d c <;> rfl
    · rfl

theorem parseTemplateWithin_unplaced : parseTemplateWithin d limit (ts.map Token.unplaced) =
    Parser.unplaced (parseTemplateWithin d limit ts) := by
  unfold parseTemplateWithin
  rw [start_unplaced]
  generalize Cursor.start ts = c
  have first := Blind.counted (Blind.allParts (Blind.expression d limit limit)) c
  have head :
      (c.unplaced.rest.head?.map Token.span).getD (.point c.unplaced.last.stop) = default := by
    obtain ⟨s, _ | ⟨t, ts⟩⟩ := c <;> rfl
  dsimp only
  rw [head]
  generalize (c.rest.head?.map Token.span).getD (.point c.last.stop) = start
  revert first
  generalize allParts (expression d limit limit) c.rest.length c = x
  generalize allParts (expression d limit limit) c.unplaced.rest.length c.unplaced = y
  rintro (⟨ps, c⟩ | e)
  · change limited _ _ = Parser.unplaced (limited _ _)
    rw [← limited_unplaced]
    simp
  · rfl

end Tree

/-- Tokens that differ in their places only. -/
theorem Token.unplaced_eq_of_same {ts us : List Token} (same : List.Forall₂ Token.Same ts us) :
    ts.map Token.unplaced = us.map Token.unplaced := by
  induction same with
  | nil => rfl
  | @cons t u ts us first _ inductionHypothesis =>
    obtain ⟨kind, text, value⟩ := first
    simp only [List.map_cons, inductionHypothesis, Token.unplaced, kind, text, value]

/-- Of tokens that differ in their places only, the parser says the same. -/
theorem Tree.parse_same (d : Dialect) {ts us : List Token}
    (same : List.Forall₂ Token.Same ts us) :
    Parser.unplaced (parse d ts) = Parser.unplaced (parse d us) ∧
      Parser.unplaced (parseTemplate d ts) = Parser.unplaced (parseTemplate d us) := by
  have unplaced := Token.unplaced_eq_of_same same
  constructor
  · rw [parse, ← parseWithin_unplaced, ← parseWithin_unplaced, unplaced]
  · rw [parseTemplate, ← parseTemplateWithin_unplaced, ← parseTemplateWithin_unplaced, unplaced]

namespace Parser

variable {x y : Except ParseError Tree}

theorem exists_ok_of_unplaced (same : unplaced x = unplaced y) {t : Tree} (accepts : x = .ok t) :
    ∃ u, y = .ok u ∧ t.SameShape u := by
  subst accepts
  cases y with
  | ok u => exact ⟨u, rfl, Except.ok.inj same⟩
  | error e => cases same

theorem eq_unexpectedEnd_of_unplaced (same : unplaced x = unplaced y)
    (ends : x = .error .unexpectedEnd) : y = .error .unexpectedEnd := by
  subst ends
  cases y with
  | ok u => cases same
  | error e => cases e <;> cases same; rfl

end Parser

end Formulae
