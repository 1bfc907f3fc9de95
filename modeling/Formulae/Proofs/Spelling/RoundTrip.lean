import Formulae.Expression.Basic
import Formulae.Proofs.Spelling.Meaning
import Formulae.Proofs.Spelling.Reparsing

/-!
Expressions that are printed and compiled again.
-/

namespace Formulae

open Eval

theorem Eval.under_of_error {α : Type} {act : Eval α} {layer : Scope → Scope} {w w' : World}
    {e : EvalError} (fails : act { w with scope := layer w.scope } = .error e w') :
    under layer act w = .error e { w' with scope := w'.scope.beneath } := by
  rw [under, fails]

theorem Eval.Alike.under {α : Type} {P : World → Prop} {x y : Eval α} (alike : Alike P x y)
    (layer : Scope → Scope) :
    Alike (fun w => P { w with scope := layer w.scope }) (Eval.under layer x)
      (Eval.under layer y) := by
  intro w
  rcases alike { w with scope := layer w.scope } with ⟨comes, apart⟩ | ⟨stays, same⟩
  · obtain ⟨e, v, e', v', fails, fails', differ⟩ := apart
    exact .inl ⟨comes, e, _, e', _, under_of_error fails, under_of_error fails', differ⟩
  · refine .inr ⟨stays, ?_⟩
    rw [Eval.under, Eval.under, same]

/-- The tree of some tokens as a text of this flavor. -/
def Flavor.parse (d : Dialect) : Flavor → List Token → Except ParseError Tree
  | template => Tree.parseTemplate d
  | _ => Tree.parse d

namespace Tree

/-- A text compiles if it is read and parsed, and is an assignment where it has to be. -/
theorem compile_eq_ok_iff_parse {presets : Presets} {flavor : Flavor} {content : String}
    {t : Tree} : compile presets flavor content = .ok t ↔
      ∃ ts, Token.read flavor.mode content.toList = .ok ts ∧
        flavor.parse (presets.get flavor) ts = .ok t ∧
        (flavor = .assignment → t.isAssignment = true) := by
  have compiles : compile presets flavor content = (do
      let ts ← (Token.read flavor.mode content.toList).mapError .lex
      let tree ← (flavor.parse (presets.get flavor) ts).mapError .parse
      if flavor = .assignment ∧ tree.isAssignment = false then throw (.notAssignment content)
      return tree) := by
    cases flavor <;> rfl
  rw [compiles]
  cases read : Token.read flavor.mode content.toList with
  | error e => simp [Except.mapError, bind, Except.bind]
  | ok ts =>
    cases parsed : flavor.parse (presets.get flavor) ts with
    | error e => simp [Except.mapError, bind, Except.bind, parsed]
    | ok tree =>
      simp only [Except.mapError, bind, Except.bind, parsed, Except.ok.injEq, exists_eq_left']
      by_cases refused : flavor = .assignment ∧ tree.isAssignment = false
      · rw [if_pos refused]
        constructor
        · rintro ⟨⟩
        · rintro ⟨rfl, assigns⟩
          rw [assigns refused.1] at refused
          cases refused.2
      · rw [if_neg refused]
        constructor
        · rintro ⟨⟩
          refine ⟨rfl, fun kind => ?_⟩
          simpa [kind] using refused
        · rintro ⟨rfl, _⟩
          rfl

theorem compile_eq_ok_iff {presets : Presets} {flavor : Flavor} (bare : flavor ≠ .template)
    {content : String} {t : Tree} :
    compile presets flavor content = .ok t ↔
      ∃ ts, Token.read .expression content.toList = .ok ts ∧
        parse (presets.get flavor) ts = .ok t ∧ (flavor = .assignment → t.isAssignment = true) := by
  rw [compile_eq_ok_iff_parse]
  cases flavor with
  | plain | readOnly | assignment => rfl
  | template => exact absurd rfl bare

theorem parse_nil (d : Dialect) (t : Tree) : parse d [] ≠ .ok t := by
  rintro ⟨⟩

theorem Respelled.isAssignment {t u : Tree} (respelled : Respelled false t u)
    (assigns : t.isAssignment = true) : u.isAssignment = true := by
  cases respelled with
  | assign => rfl
  | _ => cases assigns

end Tree

theorem Outcome.of_eq_ready_iff {presets : Presets} {flavor : Flavor} {content : String}
    {t : Tree} : Outcome.of presets flavor content = .ready t ↔
      content ≠ "" ∧ Tree.compile presets flavor content = .ok t := by
  rw [Outcome.of]
  by_cases blank : content = ""
  · simp [blank]
  · rw [if_neg (by simpa using blank)]
    cases Tree.compile presets flavor content <;> simp [blank]

/-- The text of a compiled tree compiles again. -/
theorem Outcome.exists_reprinted {names : Vocabulary} {flavor : Flavor} {content : String}
    {t : Tree} (bare : flavor ≠ .template)
    (compiled : Outcome.of (.ofVocabulary names) flavor content = .ready t) :
    ∃ u, Outcome.of (.ofVocabulary names) flavor t.text = .ready u ∧ Tree.Respelled false t u := by
  rw [of_eq_ready_iff, Tree.compile_eq_ok_iff bare] at compiled
  obtain ⟨_, ts, read, parsed, assigns⟩ := compiled
  obtain ⟨assigning, standard⟩ := Presets.exists_standard names flavor
  obtain ⟨us, u, read', parsed', respelled⟩ := Tree.exists_reparsed standard read parsed
  refine ⟨u, ?_, respelled⟩
  rw [of_eq_ready_iff, Tree.compile_eq_ok_iff bare]
  refine ⟨?_, us, ?_, parsed', fun kind => respelled.isAssignment (assigns kind)⟩
  · intro blank
    have spelled : t.chars = [] := by
      rw [← t.text.toList_eq_nil_iff] at blank
      simpa [Tree.text] using blank
    rw [spelled] at read'
    cases read'
    exact Tree.parse_nil _ _ parsed'
  · rwa [Tree.text, String.toList_ofList]

theorem Expression.ready_of_tokens {names : Vocabulary} {flavor : Flavor} {content : String}
    {ts : List Token} {t : Tree} (bare : flavor ≠ .template) (solid : content ≠ "")
    (read : Token.read .expression content.toList = .ok ts)
    (parsed : Tree.parse ((Presets.ofVocabulary names).get flavor) ts = .ok t)
    (assigns : flavor = .assignment → t.isAssignment = true) :
    (compile (.ofVocabulary names) flavor content).outcome = .ready t := by
  rw [compile, Outcome.of_eq_ready_iff, Tree.compile_eq_ok_iff bare]
  exact ⟨solid, ts, read, parsed, assigns⟩

/-- The world in which the tree of an expression is evaluated. -/
def Flavor.enter : Flavor → World → World
  | readOnly, w => { w with scope := .readOnly w.scope }
  | _, w => w

namespace Expression

theorem text_of_ready {e : Expression} {t : Tree} (ready : e.outcome = .ready t) :
    e.text = t.text := by
  rw [text, ready]
  rfl

/-- An expression compiles again from the text it is printed as, and both succeed together and
in the same way. From a world in which the evaluation comes to a sign that misleads, both fail
and the errors differ. From all other worlds both come to the same, errors included. No
evaluation comes to such a sign if the tree has none. -/
theorem reprinted_matches (names : Vocabulary) (flavor : Flavor) (bare : flavor ≠ .template)
    (content : String) (t : Tree)
    (ready : (compile (.ofVocabulary names) flavor content).outcome = .ready t) :
    let e := compile (.ofVocabulary names) flavor content
    let again := compile (.ofVocabulary names) flavor e.text
    again.isValid = true ∧
    (∀ host w v w', e.execute host w = .ok v w' ↔ again.execute host w = .ok v w') ∧
    (∀ host w, t.Misled host (flavor.enter w) →
      FailsApart (e.execute host) (again.execute host) w) ∧
    (∀ host w, ¬ t.Misled host (flavor.enter w) → e.execute host w = again.execute host w) ∧
    (t.misread = false → ∀ host w, ¬ t.Misled host (flavor.enter w)) := by
  intro e again
  obtain ⟨u, ready', respelled⟩ := Outcome.exists_reprinted bare ready
  have readyAgain : again.outcome = .ready u := by
    change Outcome.of _ _ e.text = _
    rw [text_of_ready ready, ready']
  have alike (host : Host) : Alike (fun w => t.Misled host (flavor.enter w)) (e.execute host)
      (again.execute host) := by
    have plain : Tree.Plain host t u := respelled.meets
    rw [execute_of_ready ready, execute_of_ready readyAgain]
    cases flavor with
    | readOnly => exact plain.eval.under _
    | plain | assignment | template => exact plain.eval
  refine ⟨?_, ?_, ?_, ?_, ?_⟩
  · rw [isValid, readyAgain]
    rfl
  · exact fun host w v w' => (alike host).eq_ok_iff
  · exact fun host w misled => (alike host).apart misled
  · exact fun host w clear => (alike host).apply_eq clear
  · exact fun clear host w => Tree.not_misled t clear _

/-- A sign that joins a base comes to the same; one that joins a callee does not. -/
theorem reprinted_matches_of_sign :
    let run (content : String) (host : Host) : Eval Value :=
      (compile (.ofVocabulary {}) .plain content).execute host
    (∀ host w, run "- 5 ^ n" host w = run "-5 ^ n" host w) ∧
      ∀ host w, FailsApart (run "- 5()" host) (run "-5()" host) w := by
  intro run
  constructor
  · obtain ⟨v, read, inRange⟩ : ∃ v, Token.read .expression "- 5 ^ n".toList = .ok
        [⟨.operator, ⟨0, 1⟩, "-", none⟩, ⟨.literal, ⟨2, 3⟩, "5", v⟩,
          ⟨.operator, ⟨4, 5⟩, "^", none⟩, ⟨.identifier, ⟨6, 7⟩, "n", none⟩] ∧ v.isSome = true :=
      ⟨_, by rfl, by rfl⟩
    obtain ⟨v, rfl⟩ := Option.isSome_iff_exists.mp inRange
    have ready : (compile (.ofVocabulary {}) .plain "- 5 ^ n").outcome = .ready
        (.binary ⟨⟨0, 7⟩, 3⟩ .exponent
          (.unary ⟨⟨0, 3⟩, 2⟩ .negate (.literal ⟨⟨2, 3⟩, 1⟩ "5" v)) (.name ⟨⟨6, 7⟩, 1⟩ "n")) :=
      ready_of_tokens (by decide) (by decide) read (by rfl) nofun
    obtain ⟨_, _, _, same, clear⟩ := reprinted_matches {} .plain (by decide) _ _ ready
    rw [text_of_ready ready] at same
    exact fun host w => same host w (clear rfl host w)
  · obtain ⟨v, read, inRange⟩ : ∃ v, Token.read .expression "- 5()".toList = .ok
        [⟨.operator, ⟨0, 1⟩, "-", none⟩, ⟨.literal, ⟨2, 3⟩, "5", v⟩,
          ⟨.operator, ⟨3, 4⟩, "(", none⟩, ⟨.operator, ⟨4, 5⟩, ")", none⟩] ∧ v.isSome = true :=
      ⟨_, by rfl, by rfl⟩
    obtain ⟨v, rfl⟩ := Option.isSome_iff_exists.mp inRange
    have ready : (compile (.ofVocabulary {}) .plain "- 5()").outcome = .ready
        (.unary ⟨⟨0, 5⟩, 3⟩ .negate
          (.call ⟨⟨2, 5⟩, 2⟩ (.literal ⟨⟨2, 3⟩, 1⟩ "5" v) [])) :=
      ready_of_tokens (by decide) (by decide) read (by rfl) nofun
    obtain ⟨_, _, apart, _⟩ := reprinted_matches {} .plain (by decide) _ _ ready
    rw [text_of_ready ready] at apart
    exact fun host w => apart host w (.inl rfl)

end Expression

end Formulae
