import Formulae.Expression.Basic

/-!
Assignments of a value that the caller supplies.
-/

namespace Formulae

structure Assignment where
  inner : Expression := {}

namespace Assignment

/-- The name that the supplied value goes by. -/
def valueName : String := "value"

def compile (presets : Presets) (content : String) : Assignment :=
  ⟨.compile presets .assignment content⟩

def recompile (presets : Presets) (content : String) (a : Assignment) : Assignment :=
  ⟨a.inner.recompile presets content⟩

/-- Runs the assignment with the value bound in a layer of its own, which is gone
afterwards. -/
def assign (host : Host) (v : Value) (a : Assignment) : Eval Value :=
  Eval.under (.overlay (.ofList [(valueName, v)])) (a.inner.execute host)

end Assignment

end Formulae
