import Mathlib.Data.List.Forall2
import Formulae.Proofs.Grammar.Derivation
import Formulae.Proofs.Spelling.Genuine

/-!
Phrases of the same tokens at other places.

Tokens that differ in place only derive the same tree up to spans. What becomes of the spans
is said by two functions that take the spans on the two sides to the same ones: a shift on one
side, or the same span everywhere on both.
-/

namespace Formulae

def Mark.mapSpan (f : Span → Span) (m : Mark) : Mark := { m with span := f m.span }

namespace Tree

theorem mark_mapSpan (f : Span → Span) (t : Tree) : (t.mapSpan f).mark = t.mark.mapSpan f := by
  cases t <;> rfl

theorem span_mapSpan (f : Span → Span) (t : Tree) : (t.mapSpan f).span = f t.span := by
  rw [span, mark_mapSpan]
  rfl

theorem depth_mapSpan (f : Span → Span) (t : Tree) : (t.mapSpan f).depth = t.depth := by
  rw [depth, mark_mapSpan]
  rfl

mutual

/-- Spans that are left as they are leave the tree. -/
theorem mapSpan_id (t : Tree) : t.mapSpan id = t := by
  match t with
  | literal .. | constant .. | provided .. | name .. => rfl
  | group _ inner | unary _ _ inner | step _ _ inner => simp [mapSpan, mapSpan_id inner]
  | binary _ _ left right | assign _ _ left right =>
    simp [mapSpan, mapSpan_id left, mapSpan_id right]
  | member _ container selector =>
    simp [mapSpan, mapSpan_id container, mapSelectorSpan_id selector]
  | call _ callee args => simp [mapSpan, mapSpan_id callee, mapSpans_id args]
  | choice _ condition yes no =>
    simp [mapSpan, mapSpan_id condition, mapSpan_id yes, mapSpan_id no]
  | template _ parts => simp [mapSpan, mapPartSpans_id parts]

theorem mapSelectorSpan_id (s : Selector) : mapSelectorSpan id s = s := by
  match s with
  | .named _ => rfl
  | .keyed key => simp [mapSelectorSpan, mapSpan_id key]

theorem mapSpans_id (ts : List Tree) : mapSpans id ts = ts := by
  match ts with
  | [] => rfl
  | t :: ts => simp [mapSpans, mapSpan_id t, mapSpans_id ts]

theorem mapPartSpans_id (ps : List Part) : mapPartSpans id ps = ps := by
  match ps with
  | [] => rfl
  | .text _ :: ps => simp [mapPartSpans, mapPartSpans_id ps]
  | .embed t :: ps => simp [mapPartSpans, mapSpan_id t, mapPartSpans_id ps]

end

end Tree

theorem Parser.mapSpan_resolve (f : Span → Span) (d : Dialect) (s : String) (span : Span) :
    (resolve d s span).mapSpan f = resolve d s (f span) := by
  unfold resolve
  dsimp only
  split
  · rfl
  · split <;> rfl

/-- The tokens differ in place only, and the two functions take their places to the same. -/
structure Token.Respans (f g : Span → Span) (t u : Token) : Prop where
  same : t.Same u
  span : f t.span = g u.span

theorem Token.Same.isOperator {t u : Token} (same : t.Same u) {symbol : String}
    (isOp : t.isOperator symbol = true) : u.isOperator symbol = true := by
  rw [Token.isOperator_iff] at isOp ⊢
  exact ⟨same.kind.trans isOp.1, same.text.trans isOp.2⟩

/-- Two functions that take spans to the same ones also do so for the spans over them. -/
def Merges (f g : Span → Span) : Prop :=
  ∀ a a' b b', f a = g b → f a' = g b' → f (a.merge a') = g (b.merge b')

theorem Mark.over_eq {f g : Span → Span} {a b : Span} {ts us : List Tree} (span : f a = g b)
    (children : ts.map (Tree.mapSpan f) = us.map (Tree.mapSpan g)) :
    (Mark.over a ts).mapSpan f = (Mark.over b us).mapSpan g := by
  have depths := congrArg (List.map Tree.depth) children
  simp only [List.map_map, Function.comp_def, Tree.depth_mapSpan] at depths
  have depths : ts.map Tree.depth = us.map Tree.depth := depths
  simp only [Mark.mapSpan, Mark.over, span, depths]

section

variable {assigning : Bool} {f g : Span → Span}

/-- The trees of two phrases are the same up to spans. -/
structure Derivation.Respans (d : Dialect) (f g : Span → Span) {l m : Level}
    (k : Derivation assigning l) (k' : Derivation assigning m) : Prop where
  tree : (k.tree d).mapSpan f = (k'.tree d).mapSpan g
  last : f k.last.span = g k'.last.span

theorem Derivation.Respans.span {l m : Level} {k : Derivation assigning l}
    {k' : Derivation assigning m} {d : Dialect} (respans : k.Respans d f g k') :
    f (k.tree d).span = g (k'.tree d).span := by
  have spans := congrArg Tree.span respans.tree
  rwa [Tree.span_mapSpan, Tree.span_mapSpan] at spans

/-- The same for lists of arguments and for the parts of templates. -/
def Arguments.Respans (d : Dialect) (f g : Span → Span) (args args' : Arguments assigning) : Prop :=
  (args.trees d).map (Tree.mapSpan f) = (args'.trees d).map (Tree.mapSpan g)

def Fragments.Respans (d : Dialect) (f g : Span → Span)
    (fragments fragments' : Fragments assigning) : Prop :=
  Tree.mapPartSpans f (fragments.parts d) = Tree.mapPartSpans g (fragments'.parts d)

theorem Tree.mapSpans_eq (f : Span → Span) (ts : List Tree) :
    Tree.mapSpans f ts = ts.map (Tree.mapSpan f) := by
  induction ts with
  | nil => rfl
  | cons t ts inductionHypothesis => rw [Tree.mapSpans, inductionHypothesis, List.map_cons]

theorem Part.embeds_mapPartSpans (f : Span → Span) (ps : List Part) :
    Part.embeds (Tree.mapPartSpans f ps) = (Part.embeds ps).map (Tree.mapSpan f) := by
  induction ps with
  | nil => rfl
  | cons p ps inductionHypothesis =>
    cases p with
    | text s => simpa [Tree.mapPartSpans, Part.embeds] using inductionHypothesis
    | embed t => simpa [Tree.mapPartSpans, Part.embeds] using inductionHypothesis

/-- Tokens at other places than those of the phrase, and of what stands behind it, start with a
phrase that has the same tree up to spans. -/
def Derivation.Moves (d : Dialect) (f g : Span → Span) {l : Level} (k : Derivation assigning l) :
    Prop :=
  ∀ rest us : List Token, List.Forall₂ (Token.Respans f g) (k.tokens ++ rest) us →
    ∃ (k' : Derivation assigning l) (us' : List Token), us = k'.tokens ++ us' ∧
      List.Forall₂ (Token.Respans f g) rest us' ∧ k.Respans d f g k'

def Arguments.Moves (d : Dialect) (f g : Span → Span) (args : Arguments assigning) : Prop :=
  ∀ rest us : List Token, List.Forall₂ (Token.Respans f g) (args.tokens ++ rest) us →
    ∃ (args' : Arguments assigning) (us' : List Token), us = args'.tokens ++ us' ∧
      List.Forall₂ (Token.Respans f g) rest us' ∧ args.Respans d f g args'

def Fragments.Moves (d : Dialect) (f g : Span → Span) (fragments : Fragments assigning) : Prop :=
  ∀ rest us : List Token, List.Forall₂ (Token.Respans f g) (fragments.tokens ++ rest) us →
    ∃ (fragments' : Fragments assigning) (us' : List Token), us = fragments'.tokens ++ us' ∧
      List.Forall₂ (Token.Respans f g) rest us' ∧ fragments.Respans d f g fragments'

variable {d : Dialect} {l m : Level}

/-- Two phrases with a token between them. -/
theorem Derivation.exists_between {left : Derivation assigning l} {o : Token}
    {right : Derivation assigning m} {rest us : List Token} (first : left.Moves d f g)
    (second : right.Moves d f g)
    (related : List.Forall₂ (Token.Respans f g) (left.tokens ++ o :: (right.tokens ++ rest)) us) :
    ∃ (left' : Derivation assigning l) (o' : Token) (right' : Derivation assigning m)
      (us' : List Token), us = left'.tokens ++ o' :: (right'.tokens ++ us') ∧
      List.Forall₂ (Token.Respans f g) rest us' ∧ o.Respans f g o' ∧
      left.Respans d f g left' ∧ right.Respans d f g right' := by
  obtain ⟨left', _, rfl, after, sameLeft⟩ := first _ _ related
  obtain ⟨o', _, sameO, others, rfl⟩ := List.forall₂_cons_left_iff.mp after
  obtain ⟨right', us', rfl, behind, sameRight⟩ := second _ _ others
  exact ⟨left', o', right', us', rfl, behind, sameO, sameLeft, sameRight⟩

/-- The marks over two phrases. -/
theorem Derivation.Respans.over_pair (merges : Merges f g) {left left' : Derivation assigning l}
    {right right' : Derivation assigning m} (first : left.Respans d f g left')
    (second : right.Respans d f g right') :
    (Mark.over ((left.tree d).span.merge right.last.span)
        [left.tree d, right.tree d]).mapSpan f =
      (Mark.over ((left'.tree d).span.merge right'.last.span)
        [left'.tree d, right'.tree d]).mapSpan g :=
  Mark.over_eq (merges _ _ _ _ first.span second.last) (by simp [first.tree, second.tree])

namespace Derivation

theorem moves_lift {loose : l ≠ .primary} {inner : Derivation assigning l.next}
    (first : inner.Moves d f g) : (Derivation.lift loose inner).Moves d f g := by
  intro rest us related
  obtain ⟨inner', us', tokens, behind, same⟩ := first rest us related
  exact ⟨.lift loose inner', us', tokens, behind, same.tree, same.last⟩

theorem moves_assign (merges : Merges f g) {op : AssignOp} {allowed : assigning = true}
    {target : Derivation assigning .choice} {o : Token} {isOp : o.isOperator op.symbol = true}
    {value : Derivation assigning .assignment} (first : target.Moves d f g)
    (second : value.Moves d f g) :
    (Derivation.assign op allowed target o isOp value).Moves d f g := by
  intro rest us related
  rw [tokens, List.append_assoc] at related
  obtain ⟨target', o', value', us', rfl, behind, sameO, sameTarget, sameValue⟩ :=
    exists_between first second related
  refine ⟨.assign op allowed target' o' (sameO.same.isOperator isOp) value', us', by simp, behind,
    ?_, sameValue.last⟩
  simp only [tree, Tree.mapSpan, sameTarget.tree, sameValue.tree, Tree.assign.injEq, and_true]
  exact sameTarget.over_pair merges sameValue

theorem moves_choice (merges : Merges f g) {condition : Derivation assigning .disjunction}
    {o : Token} {isOp : o.isOperator "?" = true} {yes : Derivation assigning .choice}
    {colon : Token} {isColon : colon.isOperator ":" = true} {no : Derivation assigning .choice}
    (first : condition.Moves d f g) (second : yes.Moves d f g) (third : no.Moves d f g) :
    (Derivation.choice condition o isOp yes colon isColon no).Moves d f g := by
  intro rest us related
  rw [tokens, List.append_assoc, List.cons_append, List.append_assoc] at related
  obtain ⟨condition', o', yes', _, rfl, after, sameO, sameCondition, sameYes⟩ :=
    exists_between first second related
  obtain ⟨c', _, sameC, others, rfl⟩ := List.forall₂_cons_left_iff.mp after
  obtain ⟨no', us', rfl, behind, sameNo⟩ := third _ _ others
  refine ⟨.choice condition' o' (sameO.same.isOperator isOp) yes' c'
    (sameC.same.isOperator isColon) no', us', by simp, behind, ?_, sameNo.last⟩
  simp only [tree, Tree.mapSpan, sameCondition.tree, sameYes.tree, sameNo.tree, Tree.choice.injEq,
    and_true]
  exact Mark.over_eq (merges _ _ _ _ sameCondition.span sameNo.last)
    (by simp [sameCondition.tree, sameYes.tree, sameNo.tree])

theorem moves_chain (merges : Merges f g) {op : BinaryOp} {atLevel : op.level = l}
    {chains : l ≠ .exponentiation} {left : Derivation assigning l} {o : Token}
    {isOp : o.isOperator op.symbol = true} {right : Derivation assigning l.next}
    (first : left.Moves d f g) (second : right.Moves d f g) :
    (Derivation.chain op atLevel chains left o isOp right).Moves d f g := by
  intro rest us related
  rw [tokens, List.append_assoc] at related
  obtain ⟨left', o', right', us', rfl, behind, sameO, sameLeft, sameRight⟩ :=
    exists_between first second related
  refine ⟨.chain op atLevel chains left' o' (sameO.same.isOperator isOp) right', us', by simp,
    behind, ?_, sameRight.last⟩
  simp only [tree, Tree.mapSpan, sameLeft.tree, sameRight.tree, Tree.binary.injEq, and_true]
  exact sameLeft.over_pair merges sameRight

theorem moves_exponent (merges : Merges f g) {base : Derivation assigning .unary} {o : Token}
    {isOp : o.isOperator "^" = true} {power : Derivation assigning .exponentiation}
    (first : base.Moves d f g) (second : power.Moves d f g) :
    (Derivation.exponent base o isOp power).Moves d f g := by
  intro rest us related
  rw [tokens, List.append_assoc] at related
  obtain ⟨base', o', power', us', rfl, behind, sameO, sameBase, samePower⟩ :=
    exists_between first second related
  refine ⟨.exponent base' o' (sameO.same.isOperator isOp) power', us', by simp, behind, ?_,
    samePower.last⟩
  simp only [tree, Tree.mapSpan, sameBase.tree, samePower.tree, Tree.binary.injEq, and_true]
  exact sameBase.over_pair merges samePower

theorem moves_unary (merges : Merges f g) {op : UnaryOp} {o : Token}
    {isOp : o.isOperator op.symbol = true} {operand : Derivation assigning .unary}
    (inner : operand.Moves d f g) : (Derivation.unary op o isOp operand).Moves d f g := by
  intro rest us related
  obtain ⟨o', _, sameO, others, rfl⟩ := List.forall₂_cons_left_iff.mp related
  obtain ⟨operand', us', rfl, behind, same⟩ := inner _ _ others
  refine ⟨.unary op o' (sameO.same.isOperator isOp) operand', us', by simp, behind, ?_, same.last⟩
  simp only [tree, Tree.mapSpan, same.tree, Tree.unary.injEq, and_true]
  exact Mark.over_eq (merges _ _ _ _ sameO.span same.last) (by simp [same.tree])

theorem moves_step (merges : Merges f g) {op : StepOp} {operand : Derivation assigning .suffixed}
    {o : Token} {isOp : o.isOperator op.symbol = true} (inner : operand.Moves d f g) :
    (Derivation.step op operand o isOp).Moves d f g := by
  intro rest us related
  rw [tokens, List.append_assoc] at related
  obtain ⟨operand', _, rfl, after, same⟩ := inner _ _ related
  obtain ⟨o', us', sameO, behind, rfl⟩ := List.forall₂_cons_left_iff.mp after
  refine ⟨.step op operand' o' (sameO.same.isOperator isOp), us', by simp, behind, ?_, sameO.span⟩
  simp only [tree, Tree.mapSpan, same.tree, Tree.step.injEq, and_true]
  exact Mark.over_eq (merges _ _ _ _ same.span sameO.span) (by simp [same.tree])

theorem moves_access (merges : Merges f g) {container : Derivation assigning .suffixed}
    {o : Token} {isOp : o.isOperator "." = true} {field : Token}
    {isName : field.kind = .identifier} (inner : container.Moves d f g) :
    (Derivation.access container o isOp field isName).Moves d f g := by
  intro rest us related
  rw [tokens, List.append_assoc] at related
  obtain ⟨container', _, rfl, after, same⟩ := inner _ _ related
  obtain ⟨o', _, sameO, others, rfl⟩ := List.forall₂_cons_left_iff.mp after
  obtain ⟨field', us', sameF, behind, rfl⟩ := List.forall₂_cons_left_iff.mp others
  refine ⟨.access container' o' (sameO.same.isOperator isOp) field'
    (sameF.same.kind.trans isName), us', by simp, behind, ?_, sameF.span⟩
  simp only [tree, Tree.mapSpan, Tree.mapSelectorSpan, same.tree, sameF.same.text,
    Tree.member.injEq, and_true]
  exact Mark.over_eq (merges _ _ _ _ same.span sameF.span) (by simp [same.tree])

theorem moves_lookup (merges : Merges f g) {container : Derivation assigning .suffixed}
    {o : Token} {isOpen : o.isOperator "[" = true} {key : Derivation assigning .assignment}
    {c : Token} {isClose : c.isOperator "]" = true} (first : container.Moves d f g)
    (second : key.Moves d f g) :
    (Derivation.lookup container o isOpen key c isClose).Moves d f g := by
  intro rest us related
  rw [tokens, List.append_assoc, List.cons_append, List.append_assoc] at related
  obtain ⟨container', o', key', _, rfl, after, sameO, sameContainer, sameKey⟩ :=
    exists_between first second related
  obtain ⟨c', us', sameC, behind, rfl⟩ := List.forall₂_cons_left_iff.mp after
  refine ⟨.lookup container' o' (sameO.same.isOperator isOpen) key' c'
    (sameC.same.isOperator isClose), us', by simp, behind, ?_, sameC.span⟩
  simp only [tree, Tree.mapSpan, Tree.mapSelectorSpan, sameContainer.tree, sameKey.tree,
    Tree.member.injEq, and_true]
  exact Mark.over_eq (merges _ _ _ _ sameContainer.span sameC.span)
    (by simp [sameContainer.tree, sameKey.tree])

theorem moves_invoke (merges : Merges f g) {callee : Derivation assigning .suffixed} {o : Token}
    {isOpen : o.isOperator "(" = true} {c : Token} {isClose : c.isOperator ")" = true}
    (inner : callee.Moves d f g) : (Derivation.invoke callee o isOpen c isClose).Moves d f g := by
  intro rest us related
  rw [tokens, List.append_assoc] at related
  obtain ⟨callee', _, rfl, after, same⟩ := inner _ _ related
  obtain ⟨o', _, sameO, others, rfl⟩ := List.forall₂_cons_left_iff.mp after
  obtain ⟨c', us', sameC, behind, rfl⟩ := List.forall₂_cons_left_iff.mp others
  refine ⟨.invoke callee' o' (sameO.same.isOperator isOpen) c' (sameC.same.isOperator isClose),
    us', by simp, behind, ?_, sameC.span⟩
  simp only [tree, Tree.mapSpan, Tree.mapSpans, same.tree, Tree.call.injEq, and_true]
  exact Mark.over_eq (merges _ _ _ _ same.span sameC.span) (by simp [same.tree])

theorem moves_call (merges : Merges f g) {callee : Derivation assigning .suffixed} {o : Token}
    {isOpen : o.isOperator "(" = true} {args : Arguments assigning} {c : Token}
    {isClose : c.isOperator ")" = true} (inner : callee.Moves d f g)
    (supplied : args.Moves d f g) :
    (Derivation.call callee o isOpen args c isClose).Moves d f g := by
  intro rest us related
  rw [tokens, List.append_assoc, List.cons_append, List.append_assoc] at related
  obtain ⟨callee', _, rfl, after, same⟩ := inner _ _ related
  obtain ⟨o', _, sameO, others, rfl⟩ := List.forall₂_cons_left_iff.mp after
  obtain ⟨args', _, rfl, last, sameArgs⟩ := supplied _ _ others
  obtain ⟨c', us', sameC, behind, rfl⟩ := List.forall₂_cons_left_iff.mp last
  refine ⟨.call callee' o' (sameO.same.isOperator isOpen) args' c'
    (sameC.same.isOperator isClose), us', by simp, behind, ?_, sameC.span⟩
  rw [Arguments.Respans] at sameArgs
  simp only [tree, Tree.mapSpan, Tree.mapSpans_eq, same.tree, sameArgs, Tree.call.injEq, and_true]
  exact Mark.over_eq (merges _ _ _ _ same.span sameC.span) (by simp [same.tree, sameArgs])

theorem moves_literal {t : Token} {isLiteral : t.kind = .literal} :
    (Derivation.literal t isLiteral : Derivation assigning .primary).Moves d f g := by
  intro rest us related
  obtain ⟨t', us', sameT, behind, rfl⟩ := List.forall₂_cons_left_iff.mp related
  refine ⟨.literal t' (sameT.same.kind.trans isLiteral), us', rfl, behind, ?_, sameT.span⟩
  simp only [tree, Tree.mapSpan, sameT.same.text, sameT.same.value, Tree.literal.injEq, and_true]
  exact Mark.over_eq sameT.span rfl

theorem moves_name {t : Token} {isName : t.kind = .identifier} :
    (Derivation.name t isName : Derivation assigning .primary).Moves d f g := by
  intro rest us related
  obtain ⟨t', us', sameT, behind, rfl⟩ := List.forall₂_cons_left_iff.mp related
  refine ⟨.name t' (sameT.same.kind.trans isName), us', rfl, behind, ?_, sameT.span⟩
  simp only [tree, Parser.mapSpan_resolve, sameT.same.text, sameT.span]

theorem moves_group (merges : Merges f g) {o : Token} {isOpen : o.isOperator "(" = true}
    {inner : Derivation assigning .assignment} {c : Token} {isClose : c.isOperator ")" = true}
    (grouped : inner.Moves d f g) : (Derivation.group o isOpen inner c isClose).Moves d f g := by
  intro rest us related
  rw [tokens, List.cons_append, List.append_assoc] at related
  obtain ⟨o', _, sameO, others, rfl⟩ := List.forall₂_cons_left_iff.mp related
  obtain ⟨inner', _, rfl, after, same⟩ := grouped _ _ others
  obtain ⟨c', us', sameC, behind, rfl⟩ := List.forall₂_cons_left_iff.mp after
  refine ⟨.group o' (sameO.same.isOperator isOpen) inner' c' (sameC.same.isOperator isClose), us',
    by simp, behind, ?_, sameC.span⟩
  simp only [tree, Tree.mapSpan, same.tree, Tree.group.injEq, and_true]
  exact Mark.over_eq (merges _ _ _ _ sameO.span sameC.span) (by simp [same.tree])

theorem moves_template (merges : Merges f g) {o : Token} {isOpen : o.isOperator "\x60" = true}
    {fragments : Fragments assigning} {c : Token} {isClose : c.isOperator "\x60" = true}
    (body : fragments.Moves d f g) :
    (Derivation.template o isOpen fragments c isClose).Moves d f g := by
  intro rest us related
  rw [tokens, List.cons_append, List.append_assoc] at related
  obtain ⟨o', _, sameO, others, rfl⟩ := List.forall₂_cons_left_iff.mp related
  obtain ⟨fragments', _, rfl, after, parts⟩ := body _ _ others
  obtain ⟨c', us', sameC, behind, rfl⟩ := List.forall₂_cons_left_iff.mp after
  refine ⟨.template o' (sameO.same.isOperator isOpen) fragments' c'
    (sameC.same.isOperator isClose), us', by simp, behind, ?_, sameC.span⟩
  have embeds := congrArg Part.embeds parts
  rw [Part.embeds_mapPartSpans, Part.embeds_mapPartSpans] at embeds
  simp only [tree, Tree.mapSpan, show Tree.mapPartSpans f _ = _ from parts, Tree.template.injEq,
    and_true]
  exact Mark.over_eq (merges _ _ _ _ sameO.span sameC.span) embeds

end Derivation

namespace Arguments

theorem moves_one {arg : Derivation assigning .assignment} (inner : arg.Moves d f g) :
    (Arguments.one arg).Moves d f g := by
  intro rest us related
  obtain ⟨arg', us', tokens, behind, same⟩ := inner _ _ related
  exact ⟨.one arg', us', tokens, behind, by simp [Respans, same.tree]⟩

theorem moves_more {arg : Derivation assigning .assignment} {comma : Token}
    {isComma : comma.isOperator "," = true} {args : Arguments assigning}
    (inner : arg.Moves d f g) (supplied : args.Moves d f g) :
    (Arguments.more arg comma isComma args).Moves d f g := by
  intro rest us related
  rw [tokens, List.append_assoc] at related
  obtain ⟨arg', _, rfl, after, same⟩ := inner _ _ related
  obtain ⟨comma', _, sameComma, others, rfl⟩ := List.forall₂_cons_left_iff.mp after
  obtain ⟨args', us', rfl, behind, sameArgs⟩ := supplied _ _ others
  refine ⟨.more arg' comma' (sameComma.same.isOperator isComma) args', us', by simp, behind, ?_⟩
  rw [Respans] at sameArgs ⊢
  simp [same.tree, sameArgs]

end Arguments

namespace Fragments

theorem moves_nil : (Fragments.nil : Fragments assigning).Moves d f g :=
  fun _ us related => ⟨.nil, us, rfl, related, rfl⟩

theorem moves_text {t : Token} {isText : t.kind = .literal} {fragments : Fragments assigning}
    (more : fragments.Moves d f g) : (Fragments.text t isText fragments).Moves d f g := by
  intro rest us related
  obtain ⟨t', _, sameT, others, rfl⟩ := List.forall₂_cons_left_iff.mp related
  obtain ⟨fragments', us', rfl, behind, parts⟩ := more _ _ others
  refine ⟨.text t' (sameT.same.kind.trans isText) fragments', us', by simp, behind, ?_⟩
  have content : t'.content = t.content := by
    rw [Token.content, Token.content, sameT.same.value, sameT.same.text]
  rw [Respans] at parts ⊢
  simp [Tree.mapPartSpans, parts, content]

theorem moves_embed {o : Token} {isOpen : o.isOperator "\x7b" = true}
    {inner : Derivation assigning .assignment} {c : Token} {isClose : c.isOperator "\x7d" = true}
    {fragments : Fragments assigning} (embedded : inner.Moves d f g)
    (more : fragments.Moves d f g) :
    (Fragments.embed o isOpen inner c isClose fragments).Moves d f g := by
  intro rest us related
  rw [tokens, List.cons_append, List.append_assoc, List.cons_append] at related
  obtain ⟨o', _, sameO, others, rfl⟩ := List.forall₂_cons_left_iff.mp related
  obtain ⟨inner', _, rfl, after, same⟩ := embedded _ _ others
  obtain ⟨c', _, sameC, last, rfl⟩ := List.forall₂_cons_left_iff.mp after
  obtain ⟨fragments', us', rfl, behind, parts⟩ := more _ _ last
  refine ⟨.embed o' (sameO.same.isOperator isOpen) inner' c' (sameC.same.isOperator isClose)
    fragments', us', by simp, behind, ?_⟩
  rw [Respans] at parts ⊢
  simp [Tree.mapPartSpans, parts, same.tree]

end Fragments

mutual

/-- Tokens at other places derive the same tree up to spans. -/
theorem Derivation.moves (merges : Merges f g) (d : Dialect) {l : Level}
    (k : Derivation assigning l) : k.Moves d f g := by
  match k with
  | .lift _ inner => exact Derivation.moves_lift (inner.moves merges d)
  | .assign _ _ target _ _ value =>
    exact Derivation.moves_assign merges (target.moves merges d) (value.moves merges d)
  | .choice condition _ _ yes _ _ no =>
    exact Derivation.moves_choice merges (condition.moves merges d) (yes.moves merges d)
      (no.moves merges d)
  | .chain _ _ _ left _ _ right =>
    exact Derivation.moves_chain merges (left.moves merges d) (right.moves merges d)
  | .exponent base _ _ power =>
    exact Derivation.moves_exponent merges (base.moves merges d) (power.moves merges d)
  | .unary _ _ _ operand => exact Derivation.moves_unary merges (operand.moves merges d)
  | .step _ operand _ _ => exact Derivation.moves_step merges (operand.moves merges d)
  | .access container _ _ _ _ => exact Derivation.moves_access merges (container.moves merges d)
  | .lookup container _ _ key _ _ =>
    exact Derivation.moves_lookup merges (container.moves merges d) (key.moves merges d)
  | .invoke callee _ _ _ _ => exact Derivation.moves_invoke merges (callee.moves merges d)
  | .call callee _ _ args _ _ =>
    exact Derivation.moves_call merges (callee.moves merges d) (args.moves merges d)
  | .literal _ _ => exact Derivation.moves_literal
  | .name _ _ => exact Derivation.moves_name
  | .group _ _ inner _ _ => exact Derivation.moves_group merges (inner.moves merges d)
  | .template _ _ fragments _ _ =>
    exact Derivation.moves_template merges (fragments.moves merges d)

theorem Arguments.moves (merges : Merges f g) (d : Dialect) (args : Arguments assigning) :
    args.Moves d f g := by
  match args with
  | .one arg => exact Arguments.moves_one (arg.moves merges d)
  | .more arg _ _ args => exact Arguments.moves_more (arg.moves merges d) (args.moves merges d)

theorem Fragments.moves (merges : Merges f g) (d : Dialect) (fragments : Fragments assigning) :
    fragments.Moves d f g := by
  match fragments with
  | .nil => exact Fragments.moves_nil
  | .text _ _ more => exact Fragments.moves_text (more.moves merges d)
  | .embed _ _ inner _ _ more =>
    exact Fragments.moves_embed (inner.moves merges d) (more.moves merges d)

end

end

end Formulae
