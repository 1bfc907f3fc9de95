import Formulae.Proofs.Grammar.Binding
import Formulae.Proofs.Grammar.Depth
import Formulae.Proofs.Grammar.Exactness

/-!
Assignment as an extension of the plain dialect.

A phrase without assignments is derived with assignment just as without it. So the assignment
dialect reads everything that the plain one does, as the same tree, and nothing else but trees
with assignments in them.
-/

namespace Formulae

open Formulae.Parser

/-- No node is an assignment. -/
def Tree.AssignFree (t : Tree) : Prop := ∀ u : Tree, u.NodeOf t → u.isAssignment = false

theorem Tree.AssignFree.child {t child : Tree} (free : t.AssignFree)
    (immediate : child ∈ t.children) : child.AssignFree :=
  fun u inside => free u (.deeper immediate inside)

variable {a b : Bool} {d d' : Dialect}

/-- The same phrase, derived with or without assignment. -/
structure Derivation.Transfers (d d' : Dialect) {l : Level} (k : Derivation a l)
    (k' : Derivation b l) : Prop where
  tokens : k'.tokens = k.tokens
  last : k'.last = k.last
  tree : k'.tree d' = k.tree d

/-- Names are read alike in the two dialects. -/
def Dialect.SameNames (d d' : Dialect) : Prop := ∀ s span, resolve d' s span = resolve d s span

theorem Dialect.SameNames.symm (names : d.SameNames d') : d'.SameNames d :=
  fun s span => (names s span).symm

mutual

/-- A phrase without assignments is derived with assignment and without it. -/
theorem Derivation.exists_transfer (names : d.SameNames d') {l : Level} (k : Derivation a l)
    (free : (k.tree d).AssignFree) : ∃ k' : Derivation b l, k.Transfers d d' k' := by
  match k with
  | .lift loose inner =>
    obtain ⟨inner', same⟩ := inner.exists_transfer names free
    exact ⟨.lift loose inner', same.tokens, same.last, same.tree⟩
  | .assign .. => cases free _ (.root _)
  | .choice condition o isOp yes colon isColon no =>
    obtain ⟨condition', first⟩ := condition.exists_transfer names (free.child (.head _))
    obtain ⟨yes', second⟩ := yes.exists_transfer names (free.child (.tail _ (.head _)))
    obtain ⟨no', third⟩ := no.exists_transfer names (free.child (.tail _ (.tail _ (.head _))))
    refine ⟨.choice condition' o isOp yes' colon isColon no', ?_, third.last, ?_⟩
    · simp [first.tokens, second.tokens, third.tokens]
    · simp [first.tree, second.tree, third.tree, third.last]
  | .chain op atLevel chains left o isOp right =>
    obtain ⟨left', first⟩ := left.exists_transfer names (free.child (.head _))
    obtain ⟨right', second⟩ := right.exists_transfer names (free.child (.tail _ (.head _)))
    refine ⟨.chain op atLevel chains left' o isOp right', ?_, second.last, ?_⟩
    · simp [first.tokens, second.tokens]
    · simp [first.tree, second.tree, second.last]
  | .exponent base o isOp power =>
    obtain ⟨base', first⟩ := base.exists_transfer names (free.child (.head _))
    obtain ⟨power', second⟩ := power.exists_transfer names (free.child (.tail _ (.head _)))
    refine ⟨.exponent base' o isOp power', ?_, second.last, ?_⟩
    · simp [first.tokens, second.tokens]
    · simp [first.tree, second.tree, second.last]
  | .unary op o isOp operand =>
    obtain ⟨operand', same⟩ := operand.exists_transfer names (free.child (.head _))
    refine ⟨.unary op o isOp operand', ?_, same.last, ?_⟩
    · simp [same.tokens]
    · simp [same.tree, same.last]
  | .step op operand o isOp =>
    obtain ⟨operand', same⟩ := operand.exists_transfer names (free.child (.head _))
    exact ⟨.step op operand' o isOp, by simp [same.tokens], rfl, by simp [same.tree]⟩
  | .access container o isOp field isName =>
    obtain ⟨container', same⟩ := container.exists_transfer names (free.child (.head _))
    exact ⟨.access container' o isOp field isName, by simp [same.tokens], rfl,
      by simp [same.tree]⟩
  | .lookup container o isOpen key c isClose =>
    obtain ⟨container', first⟩ := container.exists_transfer names (free.child (.head _))
    obtain ⟨key', second⟩ := key.exists_transfer names (free.child (.tail _ (.head _)))
    exact ⟨.lookup container' o isOpen key' c isClose, by simp [first.tokens, second.tokens], rfl,
      by simp [first.tree, second.tree]⟩
  | .invoke callee o isOpen c isClose =>
    obtain ⟨callee', same⟩ := callee.exists_transfer names (free.child (.head _))
    exact ⟨.invoke callee' o isOpen c isClose, by simp [same.tokens], rfl, by simp [same.tree]⟩
  | .call callee o isOpen args c isClose =>
    obtain ⟨callee', first⟩ := callee.exists_transfer names (free.child (.head _))
    obtain ⟨args', tokens, trees⟩ := args.exists_transfer names
      fun t among => free.child (.tail _ among)
    exact ⟨.call callee' o isOpen args' c isClose, by simp [first.tokens, tokens], rfl,
      by simp [first.tree, trees]⟩
  | .literal t isLiteral => exact ⟨.literal t isLiteral, rfl, rfl, rfl⟩
  | .name t isName => exact ⟨.name t isName, rfl, rfl, names _ _⟩
  | .group o isOpen inner c isClose =>
    obtain ⟨inner', same⟩ := inner.exists_transfer names (free.child (.head _))
    exact ⟨.group o isOpen inner' c isClose, by simp [same.tokens], rfl, by simp [same.tree]⟩
  | .template o isOpen fragments c isClose =>
    obtain ⟨fragments', tokens, parts⟩ := fragments.exists_transfer names
      fun t among => free.child among
    exact ⟨.template o isOpen fragments' c isClose, by simp [tokens], rfl, by simp [parts]⟩

theorem Arguments.exists_transfer (names : d.SameNames d') (args : Arguments a)
    (free : ∀ t ∈ args.trees d, t.AssignFree) :
    ∃ args' : Arguments b, args'.tokens = args.tokens ∧ args'.trees d' = args.trees d := by
  match args with
  | .one arg =>
    obtain ⟨arg', same⟩ := arg.exists_transfer names (free _ (.head _))
    exact ⟨.one arg', by simp [same.tokens], by simp [same.tree]⟩
  | .more arg comma isComma rest =>
    obtain ⟨arg', same⟩ := arg.exists_transfer names (free _ (.head _))
    obtain ⟨rest', tokens, trees⟩ := rest.exists_transfer names
      fun t among => free t (.tail _ among)
    exact ⟨.more arg' comma isComma rest', by simp [same.tokens, tokens],
      by simp [same.tree, trees]⟩

theorem Fragments.exists_transfer (names : d.SameNames d') (fragments : Fragments a)
    (free : ∀ t ∈ Part.embeds (fragments.parts d), t.AssignFree) :
    ∃ fragments' : Fragments b, fragments'.tokens = fragments.tokens ∧
      fragments'.parts d' = fragments.parts d := by
  match fragments with
  | .nil => exact ⟨.nil, rfl, rfl⟩
  | .text t isText rest =>
    obtain ⟨rest', tokens, parts⟩ := rest.exists_transfer names free
    exact ⟨.text t isText rest', by simp [tokens], by simp [parts]⟩
  | .embed o isOpen inner c isClose rest =>
    obtain ⟨inner', same⟩ := inner.exists_transfer names (free _ (.head _))
    obtain ⟨rest', tokens, parts⟩ := rest.exists_transfer names
      fun t among => free t (.tail _ among)
    exact ⟨.embed o isOpen inner' c isClose rest', by simp [same.tokens, tokens],
      by simp [same.tree, parts]⟩

end

/-- Whether there is assignment does not matter to what is read as a tree without. -/
theorem Tree.parseWithin_of_assignFree (names : d.SameNames d') (standard : d.Standard a)
    (standard' : d'.Standard b) {limit : Nat} {ts : List Token} {t : Tree}
    (parsed : parseWithin d limit ts = .ok t) (free : t.AssignFree) :
    parseWithin d' limit ts = .ok t := by
  have shallow := depth_of_parseWithin parsed
  obtain ⟨k, derived, rfl⟩ := exists_derivation standard parsed
  obtain ⟨k', same⟩ := k.exists_transfer names free
  rw [← same.tree] at shallow ⊢
  obtain ⟨sentinels, tokens, ends⟩ := k'.body_eq_iff.mp (same.tokens.trans derived)
  exact k'.parseWithin standard' shallow tokens ends

/-- A dialect without assignment has no operator that respectful trees could assign with. -/
theorem Tree.Respectful.assignFree (standard : d.Standard false) {t : Tree}
    (respectful : t.Respectful d) : t.AssignFree := by
  intro u inside
  cases u with
  | assign mark op target value =>
    obtain ⟨power, ⟨symbol, found⟩, _⟩ := (respectful _ inside).front (.assign op) target rfl
    cases ((standard.following _ _ _).mp found).2.2 rfl
  | _ => rfl

theorem Presets.standard_of_ne_assignment (names : Vocabulary) {flavor : Flavor}
    (other : flavor ≠ .assignment) : ((Presets.ofVocabulary names).get flavor).Standard false := by
  cases flavor with
  | plain | readOnly => exact Dialect.standard_plain names
  | assignment => exact absurd rfl other
  | template => exact Dialect.standard_template names

theorem Dialect.sameNames_assignment (names : Vocabulary) :
    (plain names).SameNames (assignment names) := by
  intro s span
  simp only [resolve, assignment, withFollowing]

/-- The plain dialect reads the tokens that the assignment dialect reads as a tree without
assignments, and as the same tree. The other dialects read no tree with an assignment in it. -/
theorem Tree.assignment_conservative (names : Vocabulary) (ts : List Token) :
    (∀ t, parse (.plain names) ts = .ok t ↔
      parse (.assignment names) ts = .ok t ∧ t.AssignFree) ∧
    ∀ flavor t, flavor ≠ .assignment →
      (parse ((Presets.ofVocabulary names).get flavor) ts = .ok t ∨
        parseTemplate ((Presets.ofVocabulary names).get flavor) ts = .ok t) →
      t.AssignFree := by
  have standard := Dialect.standard_plain names
  have standard' := Dialect.standard_assignment names
  have names' := Dialect.sameNames_assignment names
  constructor
  · intro t
    constructor
    · intro parsed
      have respectful := respectful_of_parseWithin standard.rulesDiffer parsed
      have free := respectful.assignFree standard
      exact ⟨parseWithin_of_assignFree names' standard standard' parsed free, free⟩
    · rintro ⟨parsed, free⟩
      exact parseWithin_of_assignFree names'.symm standard' standard parsed free
  · intro flavor t other parsed
    have standard := Presets.standard_of_ne_assignment names other
    apply Respectful.assignFree standard
    rcases parsed with parsed | parsed
    · exact respectful_of_parseWithin standard.rulesDiffer parsed
    · exact respectful_of_parseTemplateWithin standard.rulesDiffer parsed

/-- A difference is read by both dialects, and as the same tree. -/
theorem Tree.assignment_conservative_of_difference :
    let word (s : String) : Token := ⟨.identifier, default, s, none⟩
    let ts := [word "a", ⟨.operator, default, "-", none⟩, word "b"]
    ∃ t, parse (.plain {}) ts = .ok t ∧ parse (.assignment {}) ts = .ok t ∧ t.height = 2 ∧
      t.AssignFree := by
  intro word ts
  have height : (parse (.plain {}) ts).toOption.map Tree.height = some 2 := by decide +kernel
  cases parsed : parse (.plain {}) ts with
  | error e => simp [parsed, Except.toOption] at height
  | ok t =>
    obtain ⟨same, free⟩ := assignment_conservative {} ts
    exact ⟨t, rfl, ((same t).mp parsed).1, by simpa [parsed, Except.toOption] using height,
      free .plain t (by decide) (.inl parsed)⟩

end Formulae
