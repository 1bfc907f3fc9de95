import Formulae.Dialect.Vocabulary
import Formulae.Standard.Constructors
import Formulae.Standard.Mathematics

/-!
The standard host: its functions and the names it supplies.
-/

namespace Formulae.Standard

def definitions : List Definition := commands ++ constructors ++ mathCommands

/-- The standard functions; a reference counts its index from here. -/
def functions : List Function := definitions.map Definition.function

/-- References to some functions, the first of them at an index. -/
def refsFrom (index : Nat) : List Definition → List FunctionRef
  | [] => []
  | d :: ds => ⟨index, d.name⟩ :: refsFrom (index + 1) ds

/-- The standard names. The clock is read through the two providers: the seconds since
the vocabulary was made, and the seconds since the beginning of 1970. -/
def vocabulary (time realtime : Provider) : Vocabulary where
  constants := Vocabulary.core.constants
  providers := .ofList [("Time", time), ("Realtime", realtime)]
  commands := Bindings.withFunctions ∅ (refsFrom 0 commands)
  constructors := Bindings.withFunctions ∅ (refsFrom commands.length constructors)
  mathConstants := .ofList mathConstants
  mathCommands :=
    Bindings.withFunctions ∅ (refsFrom (commands.length + constructors.length) mathCommands)

end Formulae.Standard
