import Mathlib.Data.List.Forall2
import Formulae.Proofs.Grammar.Use
import Formulae.Proofs.Spelling.Reprinting
import Formulae.Proofs.Token.Context

/-!
The lexer and the parser agree on where operands stand.

The lexer has no stack: it keeps one mode and one flag. Through every nesting of brackets,
templates and embedded expressions they are what the parser makes of the token.
-/

namespace Formulae

open Formulae.Lexer

/-- The contexts in which a token can be taken so. -/
def Role.Admits (before : Context) : Role → Prop
  | operand => before = .expecting
  | following => before = .complete
  | field | mark | sentinel => before.mode = .expression
  | text | embed | closing => before.mode = .template

/-- The lexer had the mode and the flag that the use of the token asks for. The tokens read in a
template are template text, the brace that embeds a phrase and the backtick that ends the
template. -/
structure Lexer.Reading.Suits (r : Reading) (u : Use) : Prop where
  token : r.token = u.2
  template : r.state.mode = .template ↔ u.1 = .text ∨ u.1 = .embed ∨ u.1 = .closing
  operand : u.1 = .operand → r.state.afterOperand = false
  following : u.1 = .following → r.state.afterOperand = true

/-- The reading is of the token used, in a context where it can be taken so. -/
structure Lexer.Reading.Serves (r : Reading) (u : Use) : Prop where
  token : r.token = u.2
  admits : u.1.Admits r.state.context

theorem Lexer.Reading.map_token_of_serves {rs : List Reading} {us : List Use}
    (serves : List.Forall₂ Serves rs us) : rs.map token = us.map Prod.snd := by
  induction serves with
  | nil => rfl
  | cons first _ inductionHypothesis =>
    rw [List.map_cons, List.map_cons, first.token, inductionHypothesis]

theorem Role.Admits.mode_eq_template_iff {before : Context} {role : Role}
    (admits : role.Admits before) :
    before.mode = .template ↔ role = .text ∨ role = .embed ∨ role = .closing := by
  cases role with
  | operand | following =>
    subst admits
    decide
  | field | mark | sentinel =>
    rw [show before.mode = .expression from admits]
    decide
  | text | embed | closing =>
    rw [show before.mode = .template from admits]
    decide

theorem Lexer.Reading.Serves.suits {r : Reading} {u : Use} (serves : r.Serves u) : r.Suits u := by
  obtain ⟨role, t⟩ := u
  obtain ⟨same, admits⟩ := serves
  refine ⟨same, admits.mode_eq_template_iff, ?_, ?_⟩
  · rintro rfl
    exact congrArg Context.afterOperand admits
  · rintro rfl
    exact congrArg Context.afterOperand admits

/-- Each use is admitted in the context that the tokens before it leave. -/
inductive Agree : Context → List Use → Context → Prop
  | nil (before : Context) : Agree before [] before
  | cons {before after : Context} {role : Role} {t : Token} {us : List Use}
      (admits : role.Admits before) (behind : Agree (before.behind t) us after) :
      Agree before ((role, t) :: us) after

namespace Agree

variable {before middle after : Context} {us vs : List Use}

theorem append (first : Agree before us middle) (second : Agree middle vs after) :
    Agree before (us ++ vs) after := by
  induction first with
  | nil => exact second
  | cons admits _ inductionHypothesis => exact .cons admits (inductionHypothesis second)

theorem step {role : Role} {t : Token} (admits : role.Admits before)
    (leads : before.behind t = middle) (behind : Agree middle us after) :
    Agree before ((role, t) :: us) after :=
  .cons admits (leads ▸ behind)

theorem one {role : Role} {t : Token} (admits : role.Admits before)
    (leads : before.behind t = after) : Agree before [(role, t)] after :=
  step admits leads (.nil after)

theorem eq_foldl (agree : Agree before us after) :
    after = (us.map Prod.snd).foldl Context.behind before := by
  induction agree with
  | nil => rfl
  | cons _ _ inductionHypothesis => exact inductionHypothesis

/-- Readings in the contexts of the uses of their tokens. -/
theorem readings (agree : Agree before us after) {rs : List Reading} (chained : Chained before rs)
    (tokens : rs.map Reading.token = us.map Prod.snd) : List.Forall₂ Reading.Serves rs us := by
  induction agree generalizing rs with
  | nil =>
    rw [List.map_eq_nil_iff.mp tokens]
    exact .nil
  | cons admits _ inductionHypothesis =>
    cases chained with
    | nil => cases tokens
    | cons behind =>
      obtain ⟨same, others⟩ := List.cons.inj tokens
      dsimp only at same
      subst same
      exact .cons ⟨rfl, admits⟩ (inductionHypothesis behind others)

end Agree

/-- What is related to a list with a segment has a segment for it. -/
theorem exists_segment_of_forall₂ {α β : Type} {R : α → β → Prop} {xs : List α}
    {front part back : List β} (related : List.Forall₂ R xs (front ++ (part ++ back))) :
    ∃ before segment behind, xs = before ++ (segment ++ behind) ∧
      List.Forall₂ R segment part := by
  have behind := List.forall₂_drop_append xs front (part ++ back) related
  refine ⟨xs.take front.length, (xs.drop front.length).take part.length,
    (xs.drop front.length).drop part.length, ?_, List.forall₂_take_append _ _ _ behind⟩
  rw [List.take_append_drop, List.take_append_drop]

namespace Context

variable {o : Token}

/-- What an operator leaves depends on its symbol only. -/
theorem behind_of_isOperator (before : Context) {symbol : String}
    (isOp : o.isOperator symbol = true) :
    before.behind o = before.behind ⟨.operator, default, symbol, none⟩ := by
  obtain ⟨kind, text⟩ := Token.isOperator_iff.mp isOp
  simp [behind, Token.completes, Mode.behind, Token.switches, Token.isOperator, kind, text]

theorem behind_binary {op : BinaryOp} (isOp : o.isOperator op.symbol = true) :
    complete.behind o = expecting := by
  rw [behind_of_isOperator _ isOp]
  cases op <;> rfl

theorem behind_assign {op : AssignOp} (isOp : o.isOperator op.symbol = true) :
    complete.behind o = expecting := by
  rw [behind_of_isOperator _ isOp]
  cases op <;> rfl

theorem behind_unary {op : UnaryOp} (isOp : o.isOperator op.symbol = true) :
    expecting.behind o = expecting := by
  rw [behind_of_isOperator _ isOp]
  match op with
  | .negate | .invert | .step .increment | .step .decrement => rfl

theorem behind_step {op : StepOp} (isOp : o.isOperator op.symbol = true) :
    complete.behind o = complete := by
  rw [behind_of_isOperator _ isOp]
  cases op <;> rfl

theorem behind_operand {t : Token} (operand : t.kind = .literal ∨ t.kind = .identifier) :
    expecting.behind t = complete := by
  rcases operand with kind | kind <;>
    simp [behind, Token.completes, Mode.behind_of_kind, kind, expecting, complete]

theorem behind_text {t : Token} (isText : t.kind = .literal) : inside.behind t = inside := by
  simp [behind, Token.completes, Mode.behind_of_kind, Token.isOperator, isText, inside]

end Context

variable {assigning : Bool}

open Context

mutual

/-- A phrase stands where an operand is expected, and it completes one. -/
theorem Derivation.agree {l : Level} (k : Derivation assigning l) :
    Agree expecting k.uses complete := by
  match k with
  | .lift _ inner => exact inner.agree
  | .assign _ _ left _ isOp right =>
    exact left.agree.append (.step rfl (behind_assign isOp) right.agree)
  | .choice condition _ isOp yes _ isColon no =>
    exact condition.agree.append (.step rfl (behind_of_isOperator _ isOp)
      (yes.agree.append (.step rfl (behind_of_isOperator _ isColon) no.agree)))
  | .chain _ _ _ left _ isOp right =>
    exact left.agree.append (.step rfl (behind_binary isOp) right.agree)
  | .exponent left _ isOp right =>
    exact left.agree.append (.step rfl (behind_of_isOperator _ isOp) right.agree)
  | .unary _ _ isOp inner => exact .step rfl (behind_unary isOp) inner.agree
  | .step _ inner _ isOp => exact inner.agree.append (.one rfl (behind_step isOp))
  | .access inner _ isOp _ isName =>
    exact inner.agree.append (.step rfl (behind_of_isOperator _ isOp)
      (.one rfl (behind_operand (.inr isName))))
  | .lookup container _ isOpen key _ isClose =>
    exact container.agree.append (.step rfl (behind_of_isOperator _ isOpen)
      (key.agree.append (.one rfl (behind_of_isOperator _ isClose))))
  | .invoke callee _ isOpen _ isClose =>
    exact callee.agree.append (.step rfl (behind_of_isOperator _ isOpen)
      (.one rfl (behind_of_isOperator _ isClose)))
  | .call callee _ isOpen args _ isClose =>
    exact callee.agree.append (.step rfl (behind_of_isOperator _ isOpen)
      (args.agree.append (.one rfl (behind_of_isOperator _ isClose))))
  | .literal _ isLiteral => exact .one rfl (behind_operand (.inl isLiteral))
  | .name _ isName => exact .one rfl (behind_operand (.inr isName))
  | .group _ isOpen inner _ isClose =>
    exact .step rfl (behind_of_isOperator _ isOpen)
      (inner.agree.append (.one rfl (behind_of_isOperator _ isClose)))
  | .template _ isOpen fragments _ isClose =>
    exact .step rfl (behind_of_isOperator _ isOpen)
      (fragments.agree.append (.one rfl (behind_of_isOperator _ isClose)))

theorem Arguments.agree (args : Arguments assigning) : Agree expecting args.uses complete := by
  match args with
  | .one arg => exact arg.agree
  | .more arg _ isComma rest =>
    exact arg.agree.append (.step rfl (behind_of_isOperator _ isComma) rest.agree)

theorem Fragments.agree (fragments : Fragments assigning) :
    Agree inside fragments.uses inside := by
  match fragments with
  | .nil => exact .nil inside
  | .text _ isText rest => exact .step rfl (behind_text isText) rest.agree
  | .embed _ isOpen inner _ isClose rest =>
    exact .step rfl (behind_of_isOperator _ isOpen)
      (inner.agree.append (.step rfl (behind_of_isOperator _ isClose) rest.agree))

end

/-- Nothing but sentinels keeps the mode. -/
theorem exists_agree_sentinels {before : Context} (expression : before.mode = .expression)
    {sentinels : List Token} (ends : ∀ t ∈ sentinels, t.kind = .sentinel) :
    ∃ after, Agree before (sentinels.map (Prod.mk .sentinel)) after := by
  induction sentinels generalizing before with
  | nil => exact ⟨before, .nil before⟩
  | cons t ts inductionHypothesis =>
    rw [List.forall_mem_cons] at ends
    have stays : (before.behind t).mode = .expression := by
      rw [Context.behind, Mode.behind_of_kind _ (by simp [ends.1]), expression]
    obtain ⟨after, agree⟩ := inductionHypothesis stays ends.2
    exact ⟨after, .cons expression agree⟩

/-- What the parser of a flavor takes its tokens for when it makes the tree of them: a phrase and
sentinels behind it, or the body of a template. -/
def Flavor.Takes (assigning : Bool) (d : Dialect) (t : Tree) (us : List Use) : Flavor → Prop
  | template => ∃ (fragments : Fragments assigning) (span : Span), us = fragments.uses ∧
      t = .template (.over span (Part.embeds (fragments.parts d))) (fragments.parts d)
  | _ => ∃ (k : Derivation assigning .assignment) (sentinels : List Token),
      us = k.uses ++ sentinels.map (Prod.mk .sentinel) ∧ (∀ s ∈ sentinels, s.kind = .sentinel) ∧
        t = k.tree d

namespace Flavor

variable {d : Dialect} {flavor : Flavor} {t : Tree} {us : List Use}

/-- What is parsed is taken for something. -/
theorem exists_takes (standard : d.Standard assigning) {ts : List Token}
    (parsed : flavor.parse d ts = .ok t) :
    ∃ us, flavor.Takes assigning d t us ∧ us.map Prod.snd = Token.significant ts := by
  cases flavor with
  | template =>
    obtain ⟨fragments, span, tokens, tree, _⟩ := exists_fragments standard parsed
    exact ⟨fragments.uses, ⟨fragments, span, rfl, tree⟩, fragments.map_uses.trans tokens⟩
  | plain | readOnly | assignment =>
    obtain ⟨k, body, rfl⟩ := exists_derivation standard parsed
    obtain ⟨sentinels, tokens, ends⟩ := k.body_eq_iff.mp body
    refine ⟨_, ⟨k, sentinels, rfl, ends, rfl⟩, ?_⟩
    rw [tokens, List.map_append, k.map_uses, List.map_map]
    simp [Function.comp_def]

theorem Takes.exists_agree (takes : flavor.Takes assigning d t us) :
    ∃ after, Agree ⟨flavor.mode, false⟩ us after := by
  cases flavor with
  | template =>
    obtain ⟨fragments, _, rfl, _⟩ := takes
    exact ⟨inside, fragments.agree⟩
  | plain | readOnly | assignment =>
    obtain ⟨k, sentinels, rfl, ends, _⟩ := takes
    have expression : complete.mode = .expression := rfl
    obtain ⟨after, behind⟩ := exists_agree_sentinels expression ends
    exact ⟨after, k.agree.append behind⟩

/-- The trees of the expressions in a text: those embedded in a bare template, or the whole. -/
def roots (t : Tree) : Flavor → List Tree
  | template => t.children
  | _ => [t]

/-- Each node of an expression in a text is the tree of a phrase in it. -/
theorem Takes.exists_phrase (takes : flavor.Takes assigning d t us) {root u : Tree}
    (isRoot : root ∈ flavor.roots t) (node : u.NodeOf root) :
    ∃ (k : Phrase assigning) (front back : List Use), k.tree d = u ∧
      us = front ++ (k.uses ++ back) := by
  have within : ∃ (k : Phrase assigning) (front back : List Use), k.tree d = root ∧
      us = front ++ (k.uses ++ back) := by
    cases flavor with
    | template =>
      obtain ⟨fragments, _, rfl, rfl⟩ := takes
      obtain ⟨ks, within⟩ := fragments.exists_children d
      exact within.exists_phrase isRoot
    | plain | readOnly | assignment =>
      obtain ⟨k, sentinels, rfl, _, rfl⟩ := takes
      cases List.mem_singleton.mp isRoot
      exact ⟨⟨_, k⟩, [], _, rfl, rfl⟩
  obtain ⟨k, front, back, tree, rfl⟩ := within
  obtain ⟨k', front', back', tree', place⟩ := Phrase.exists_of_node node k tree
  exact ⟨k', front ++ front', back' ++ back, tree', by simp [place]⟩

/-- All nodes but a bare template itself are nodes of the expressions in a text. -/
theorem Takes.exists_root (takes : flavor.Takes assigning d t us) {u : Tree}
    (node : u.NodeOf t) (other : ∀ m ps, u ≠ .template m ps) :
    ∃ root ∈ flavor.roots t, u.NodeOf root := by
  cases flavor with
  | template =>
    obtain ⟨_, _, _, rfl⟩ := takes
    cases node with
    | root => exact absurd rfl (other _ _)
    | deeper immediate inside => exact ⟨_, immediate, inside⟩
  | plain | readOnly | assignment => exact ⟨t, List.mem_singleton_self t, node⟩

end Flavor

/-- A phrase for a literal is a literal. -/
theorem Derivation.exists_literal {d : Dialect} {l : Level} (k : Derivation assigning l) {m : Mark}
    {s : String} {v : Value} (tree : k.tree d = .literal m s v) :
    ∃ t : Token, k.uses = [(.operand, t)] ∧ t.kind = .literal ∧ t.span = m.span ∧ t.text = s ∧
      t.value.getD .empty = v := by
  match k with
  | .lift _ inner => exact inner.exists_literal tree
  | .literal t isLiteral =>
    cases tree
    exact ⟨t, rfl, isLiteral, rfl, rfl, rfl⟩
  | .name t _ =>
    rw [Derivation.tree, Parser.resolve] at tree
    split at tree
    · cases tree
    · split at tree <;> cases tree
  | .assign .. | .choice .. | .chain .. | .exponent .. | .unary .. | .step .. | .access ..
  | .lookup .. | .invoke .. | .call .. | .group .. | .template .. => cases tree

/-- A literal of the tree was read in an expression. -/
theorem Flavor.Takes.exists_reading_of_literal {d : Dialect} {flavor : Flavor} {t : Tree}
    {us : List Use} {rs : List Reading} (takes : flavor.Takes assigning d t us)
    (serves : List.Forall₂ Reading.Serves rs us) {m : Mark} {s : String} {v : Value}
    (node : (Tree.literal m s v).NodeOf t) :
    ∃ r ∈ rs, r.state.mode = .expression ∧ r.token.kind = .literal ∧ r.token.span = m.span ∧
      r.token.text = s ∧ r.token.value.getD .empty = v := by
  obtain ⟨root, isRoot, node⟩ := takes.exists_root node (by simp)
  obtain ⟨k, front, back, tree, rfl⟩ := takes.exists_phrase isRoot node
  obtain ⟨t, uses, kind, span, text, value⟩ := k.2.exists_literal tree
  rw [Phrase.uses, uses] at serves
  obtain ⟨before, segment, behind, rfl, paired⟩ := exists_segment_of_forall₂ serves
  cases paired with
  | @cons r _ _ _ first others =>
    cases others
    obtain ⟨rfl, admits⟩ := first
    exact ⟨r, by simp, congrArg Context.mode admits, kind, span, text, value⟩

namespace Lexer

/-- In the body of a template everything means something. -/
theorem Trace.means_of_template {st st' : State} {cs rest : List Char} {rs : List Reading}
    (trace : Trace st cs rs st' rest) :
    ∀ r ∈ rs, r.state.mode = .template → r ∈ meaningful rs := by
  induction trace with
  | nil => simp
  | cons scans _ _ _ inductionHypothesis =>
    intro r member template
    rw [meaningful, List.mem_filter]
    refine ⟨member, ?_⟩
    rcases List.mem_cons.mp member with rfl | later
    · simp [State.token, (scanned_template scans template).1]
    · exact (List.mem_filter.mp (inductionHypothesis r later template)).2

end Lexer

/-- The mode of the lexer and its flag at each token suit what the parser takes the token for: it
takes the tokens for something, and however it takes them, the readings suit the uses. The
literals of the tree were read in an expression, and so were comments and white space. -/
theorem context_agrees (names : Vocabulary) (flavor : Flavor) {content : String}
    {rs : List Reading} {t : Tree}
    (read : readings false { mode := flavor.mode } 0 content.toList = .ok rs)
    (parsed : flavor.parse ((Presets.ofVocabulary names).get flavor)
      (rs.map Reading.token) = .ok t) :
    (∃ assigning us, flavor.Takes assigning ((Presets.ofVocabulary names).get flavor) t us ∧
      us.map Prod.snd = rs.map Reading.token) ∧
    (∀ assigning us, flavor.Takes assigning ((Presets.ofVocabulary names).get flavor) t us →
      us.map Prod.snd = rs.map Reading.token → List.Forall₂ Reading.Suits rs us) ∧
    (∀ m s v, (Tree.literal m s v).NodeOf t → ∃ r ∈ rs, r.state.mode = .expression ∧
      r.token.kind = .literal ∧ r.token.span = m.span ∧ r.token.text = s ∧
        r.token.value.getD .empty = v) ∧
    ∀ all, readings true { mode := flavor.mode } 0 content.toList = .ok all →
      ∀ r ∈ all, r.state.mode = .template → r ∈ rs := by
  obtain ⟨assigning, standard⟩ := Presets.exists_standard names flavor
  obtain ⟨all, st', trace, rfl⟩ := readings_false_eq_ok_iff.mp read
  have agrees {assigning : Bool} {us : List Use}
      (takes : flavor.Takes assigning ((Presets.ofVocabulary names).get flavor) t us)
      (tokens : us.map Prod.snd = (meaningful all).map Reading.token) :
      List.Forall₂ Reading.Serves (meaningful all) us := by
    obtain ⟨after, agree⟩ := takes.exists_agree
    exact agree.readings trace.chained tokens.symm
  obtain ⟨us, takes, tokens⟩ := Flavor.exists_takes standard parsed
  rw [significant_meaningful] at tokens
  refine ⟨⟨assigning, us, takes, tokens⟩, ?_, ?_, ?_⟩
  · intro assigning us takes tokens
    exact (agrees takes tokens).imp fun _ _ serves => serves.suits
  · intro m s v node
    exact takes.exists_reading_of_literal (agrees takes tokens) node
  · intro all' read' r member template
    rw [readings_eq_ok_iff.mpr ⟨st', trace⟩] at read'
    cases read'
    exact trace.means_of_template r member template

/-- A step, a difference and a signed number that a template embeds. -/
theorem context_agrees_of_template :
    let contexts (rs : List Reading) := rs.map fun r => (r.state.mode, r.state.afterOperand)
    ∃ rs t us,
      readings false { mode := .expression } 0 "a++ -\x60b\x7b-1\x7d\x60".toList = .ok rs ∧
      Tree.parse (.plain {}) (rs.map Reading.token) = .ok t ∧
      contexts rs =
        [(.expression, false), (.expression, true), (.expression, true), (.expression, false),
          (.template, false), (.template, false), (.expression, false), (.expression, true),
          (.template, false)] ∧
      List.Forall₂ Reading.Suits rs us := by
  intro contexts
  have compute (content : String) (expected : List (Mode × Bool))
      (computed : ((readings false { mode := .expression } 0 content.toList).toOption.bind fun rs =>
        (Tree.parse (.plain {}) (rs.map Reading.token)).toOption.map fun _ => contexts rs) =
          some expected) :
      ∃ rs t, readings false { mode := .expression } 0 content.toList = .ok rs ∧
        Tree.parse (.plain {}) (rs.map Reading.token) = .ok t ∧ contexts rs = expected := by
    cases read : readings false { mode := .expression } 0 content.toList with
    | error e => simp [read, Except.toOption] at computed
    | ok rs =>
      cases parsed : Tree.parse (.plain {}) (rs.map Reading.token) with
      | error e => simp [read, parsed, Except.toOption] at computed
      | ok t => exact ⟨rs, t, rfl, parsed, by simpa [read, parsed, Except.toOption] using computed⟩
  obtain ⟨rs, t, read, parsed, same⟩ := compute "a++ -\x60b\x7b-1\x7d\x60"
    [(.expression, false), (.expression, true), (.expression, true), (.expression, false),
      (.template, false), (.template, false), (.expression, false), (.expression, true),
      (.template, false)] (by decide +kernel)
  obtain ⟨⟨assigning, us, takes, tokens⟩, suits, _⟩ := context_agrees {} .plain read parsed
  exact ⟨rs, t, us, read, parsed, same, suits assigning us takes tokens⟩

end Formulae
