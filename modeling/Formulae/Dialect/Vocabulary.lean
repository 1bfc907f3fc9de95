import Formulae.Host.Provider
import Std.Data.TreeMap

/-!
The names a host supplies, in groups.

A group decides which kinds of expression see its names. Functions are values bound
to their own name.
-/

namespace Formulae

/-- Names bound to values. -/
abbrev Bindings := Std.TreeMap String Value

structure Vocabulary where
  constants : Bindings := ∅
  providers : Std.TreeMap String Provider := ∅
  commands : Bindings := ∅
  constructors : Bindings := ∅
  mathConstants : Bindings := ∅
  mathCommands : Bindings := ∅

/-- Binds each function to its name. -/
def Bindings.withFunctions (bindings : Bindings) (refs : List FunctionRef) : Bindings :=
  refs.foldl (fun b ref => b.insert ref.name (.function ref)) bindings

/-- The names without which no literal of their kind could be written. -/
def Vocabulary.core : Vocabulary where
  constants := .ofList [("null", Value.null), ("true", .bool true), ("false", .bool false)]

end Formulae
