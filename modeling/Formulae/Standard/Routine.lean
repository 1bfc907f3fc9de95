import Formulae.Host.Function

/-!
Routines: function bodies that say which arguments they read.

A body reads its arguments by their positions, one after another, and ends with a result.
An argument of another kind reads as zero. A read past the last argument leaves the body
without a result, unless it is padded. A routine goes with parameters that declare what its
body reads. An overload binds the arguments to them first, so that neither comes to pass.
-/

namespace Formulae.Standard

/-- A read of the argument at a position. -/
inductive Read where
  | word (i : Nat)
  | float (i : Nat)
  /-- Past the last argument it gives zero. -/
  | padded (i : Nat)
  deriving DecidableEq, Repr

namespace Read

abbrev Result : Read → Type
  | word _ => Int64
  | float _ | padded _ => Float

/-- What is read; `none` past the last argument. -/
def answer? (args : List Value) : (r : Read) → Option r.Result
  | word i => args[i]?.map fun v => v.asInt?.getD 0
  | float i => args[i]?.map fun v => v.asFloat?.getD 0
  | padded i => some ((args[i]?.bind Value.asFloat?).getD 0)

/-- Whether parameters of these kinds hold what is read. -/
def Declared (params : List Kind) : Read → Prop
  | word i => params[i]? = some .int
  | float i => params[i]? = some .float
  | padded i => ∀ k, params[i]? = some k → k = .float

theorem declared_padded (n i : Nat) : (padded i).Declared (.replicate n .float) := by
  intro k found
  exact List.eq_of_mem_replicate (List.mem_of_getElem? found)

end Read

/-- A function body; each read decides how it goes on. -/
inductive Body where
  | done (result : Except String Value)
  | read (r : Read) (next : r.Result → Body)

namespace Body

/-- The result; `none` if a read fails. -/
def run? (args : List Value) : Body → Option (Except String Value)
  | done result => some result
  | read r next => (r.answer? args).bind fun x => (next x).run? args

/-- Every read, whatever the ones before it have given, is declared by the parameters. -/
def Declared (params : List Kind) : Body → Prop
  | done _ => True
  | read r next => r.Declared params ∧ ∀ x, (next x).Declared params

end Body

structure Routine where
  params : List Kind
  body : Body
  declared : body.Declared params := by simp [Body.Declared, Read.Declared]

namespace Routine

/-- A fixed result for no arguments. -/
def nothing (v : Value) : Routine where
  params := []
  body := .done (.ok v)

def onWord (f : Int64 → Except String Value) : Routine where
  params := [.int]
  body := .read (.word 0) fun i => .done (f i)

def onWords2 (f : Int64 → Int64 → Except String Value) : Routine where
  params := [.int, .int]
  body := .read (.word 0) fun i => .read (.word 1) fun j => .done (f i j)

def onWords3 (f : Int64 → Int64 → Int64 → Except String Value) : Routine where
  params := [.int, .int, .int]
  body := .read (.word 0) fun i => .read (.word 1) fun j => .read (.word 2) fun k =>
    .done (f i j k)

def onFloat (f : Float → Except String Value) : Routine where
  params := [.float]
  body := .read (.float 0) fun x => .done (f x)

def onFloats2 (f : Float → Float → Except String Value) : Routine where
  params := [.float, .float]
  body := .read (.float 0) fun x => .read (.float 1) fun y => .done (f x y)

def onFloats3 (f : Float → Float → Float → Except String Value) : Routine where
  params := [.float, .float, .float]
  body := .read (.float 0) fun x => .read (.float 1) fun y => .read (.float 2) fun z =>
    .done (f x y z)

/-- Reads four numbers. Those that are not declared are zero. -/
def onPadded (n : Nat) (f : Float → Float → Float → Float → Except String Value) : Routine where
  params := .replicate n .float
  body := .read (.padded 0) fun x => .read (.padded 1) fun y => .read (.padded 2) fun z =>
    .read (.padded 3) fun w => .done (f x y z w)
  declared := by simp [Body.Declared, Read.declared_padded]

def overload (r : Routine) : Overload where
  params := some r.params
  body args := (r.body.run? args).getD (.error "argument past the last")

end Routine

/-- A function with its routines in the order they are tried. -/
structure Definition where
  name : String
  routines : List Routine

def Definition.function (d : Definition) : Function := ⟨d.name, d.routines.map Routine.overload⟩

/-- A function of one number. -/
def Definition.ofFloat (name : String) (f : Float → Float) : Definition :=
  ⟨name, [.onFloat fun x => .ok (.float (f x))]⟩

end Formulae.Standard
