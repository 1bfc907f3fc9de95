import Formulae.Expression.Basic

/-!
Template text that is rendered against a scope.
-/

namespace Formulae

structure Template where
  inner : Expression := {}

namespace Template

def compile (presets : Presets) (content : String) : Template :=
  ⟨.compile presets .template content⟩

def recompile (presets : Presets) (content : String) (t : Template) : Template :=
  ⟨t.inner.recompile presets content⟩

/-- The rendered text; no text at all if the template is invalid. -/
def render (host : Host) (t : Template) : Eval String := return (← t.inner.execute host).text

end Template

end Formulae
