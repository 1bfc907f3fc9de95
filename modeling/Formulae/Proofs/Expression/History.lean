import Formulae.Expression.Assignment
import Formulae.Expression.Template

/-!
Expressions whose text is replaced again and again.

A text that is compiled leaves nothing of the texts before it. The flavor is what stays, and
it is given where the expression is made: by the constructor, or else by the default, which
is the plain one for assignments and templates too.
-/

namespace Formulae

/-- A text, and the dialects it is compiled with. -/
structure Edit where
  presets : Presets
  content : String

namespace Outcome

theorem tree?_eq_none_or_error?_eq_none (outcome : Outcome) :
    outcome.tree? = none ∨ outcome.error? = none := by
  cases outcome with
  | blank | failed => exact .inl rfl
  | ready => exact .inr rfl

/-- Only empty text is neither an expression nor an error. -/
theorem absent_iff (presets : Presets) (flavor : Flavor) (content : String) :
    (of presets flavor content).tree? = none ∧ (of presets flavor content).error? = none ↔
      content = "" := by
  unfold of
  by_cases empty : content.isEmpty
  · rw [if_pos empty]
    exact iff_of_true ⟨rfl, rfl⟩ (String.isEmpty_iff.mp empty)
  · rw [if_neg empty]
    refine iff_of_false ?_ fun same => empty (String.isEmpty_iff.mpr same)
    cases Tree.compile presets flavor content with
    | ok tree => exact fun absent => nomatch absent.1
    | error e => exact fun absent => nomatch absent.2

end Outcome

namespace Expression

/-- The expression after several edits. -/
def edited (edits : List Edit) (e : Expression) : Expression :=
  edits.foldl (fun e edit => e.recompile edit.presets edit.content) e

theorem edited_compile (flavor : Flavor) (first : Edit) (edits : List Edit) :
    (compile first.presets flavor first.content).edited edits =
      compile (edits.getLastD first).presets flavor (edits.getLastD first).content := by
  induction edits generalizing first with
  | nil => rfl
  | cons next edits inductionHypothesis =>
    rw [List.getLastD_cons]
    exact inductionHypothesis next

end Expression

namespace Assignment

def edited (edits : List Edit) (a : Assignment) : Assignment :=
  edits.foldl (fun a edit => a.recompile edit.presets edit.content) a

theorem edited_mk (edits : List Edit) (e : Expression) :
    (mk e).edited edits = mk (e.edited edits) := by
  induction edits generalizing e with
  | nil => rfl
  | cons edit edits inductionHypothesis =>
    exact inductionHypothesis (e.recompile edit.presets edit.content)

end Assignment

namespace Template

def edited (edits : List Edit) (t : Template) : Template :=
  edits.foldl (fun t edit => t.recompile edit.presets edit.content) t

theorem edited_mk (edits : List Edit) (e : Expression) :
    (mk e).edited edits = mk (e.edited edits) := by
  induction edits generalizing e with
  | nil => rfl
  | cons edit edits inductionHypothesis =>
    exact inductionHypothesis (e.recompile edit.presets edit.content)

end Template

/-- After any number of edits an expression, an assignment or a template is what its constructor
makes of the last text. One that starts as the default is what the plain flavor makes of it,
whichever of the three it is. There is a tree or an error and not both, and neither exactly
where the text is empty. -/
theorem edited_forgets_history (first : Edit) (edits : List Edit) :
    let last := edits.getLastD first
    let lastOfDefault := edits.getLastD ⟨first.presets, ""⟩
    let plain := Expression.compile lastOfDefault.presets .plain lastOfDefault.content
    (∀ flavor, (Expression.compile first.presets flavor first.content).edited edits =
      .compile last.presets flavor last.content) ∧
    (Assignment.compile first.presets first.content).edited edits =
      .compile last.presets last.content ∧
    (Template.compile first.presets first.content).edited edits =
      .compile last.presets last.content ∧
    ({} : Expression).edited edits = plain ∧
    ({} : Assignment).edited edits = ⟨plain⟩ ∧
    ({} : Template).edited edits = ⟨plain⟩ ∧
    ∀ (presets : Presets) (flavor : Flavor) (content : String),
      let outcome := (Expression.compile presets flavor content).outcome
      (outcome.tree? = none ∨ outcome.error? = none) ∧
        (outcome.tree? = none ∧ outcome.error? = none ↔ content = "") := by
  intro last lastOfDefault plain
  have ofDefault : ({} : Expression).edited edits = plain :=
    Expression.edited_compile .plain ⟨first.presets, ""⟩ edits
  refine ⟨fun flavor => Expression.edited_compile flavor first edits, ?_, ?_, ofDefault, ?_, ?_,
    fun presets flavor content => ⟨?_, ?_⟩⟩
  · rw [Assignment.compile, Assignment.edited_mk, Expression.edited_compile]
    rfl
  · rw [Template.compile, Template.edited_mk, Expression.edited_compile]
    rfl
  · rw [Assignment.edited_mk, ofDefault]
  · rw [Template.edited_mk, ofDefault]
  · exact Outcome.tree?_eq_none_or_error?_eq_none _
  · exact Outcome.absent_iff presets flavor content

/-- The default assignment does not take the text that the constructor takes. -/
theorem edited_forgets_history_of_default :
    let edit : Edit := ⟨.ofVocabulary {}, "x = value"⟩
    (Assignment.compile edit.presets edit.content).inner.isValid = true ∧
      (({} : Assignment).edited [edit]).inner.flavor = .plain ∧
      (({} : Assignment).edited [edit]).inner.isValid = false := by
  intro edit
  obtain ⟨_, _, _, _, ofDefault, _⟩ := edited_forgets_history edit [edit]
  rw [ofDefault]
  decide +kernel

end Formulae
