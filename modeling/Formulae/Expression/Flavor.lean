import Formulae.Dialect.Basic
import Formulae.Token.Rule

/-!
The flavors of expression: which dialect reads the text and how it runs.
-/

namespace Formulae

inductive Flavor where
  | plain
  /-- Every write is refused when the expression runs. -/
  | readOnly
  /-- The whole expression has to be an assignment. -/
  | assignment
  /-- The whole text is the body of a template. -/
  | template
  deriving DecidableEq, Repr

/-- The mode in which the text of an expression starts. -/
def Flavor.mode : Flavor → Mode
  | template => .template
  | _ => .expression

/-- A dialect for each flavor. -/
structure Presets where
  plain : Dialect
  readOnly : Dialect
  assignment : Dialect
  template : Dialect

/-- The standard dialects over the names of a host. -/
def Presets.ofVocabulary (names : Vocabulary) : Presets where
  plain := .plain names
  readOnly := .readOnly names
  assignment := .assignment names
  template := .template names

def Presets.get (presets : Presets) : Flavor → Dialect
  | .plain => presets.plain
  | .readOnly => presets.readOnly
  | .assignment => presets.assignment
  | .template => presets.template

end Formulae
