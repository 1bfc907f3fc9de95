import Formulae.Value.Display

/-!
Host functions and the choice among their overloads.

A call runs the body of the first overload that accepts the arguments, on the
arguments converted to that overload's parameters, and no other body.
-/

namespace Formulae

/-- Why a call has no result. -/
inductive CallError where
  | noOverload (name : String) (arguments : List Kind)
  | failed (name reason : String)
  deriving DecidableEq, Repr

def CallError.message : CallError → String
  | .noOverload name arguments =>
    "no overload of '" ++ name ++ "' accepts (" ++ ", ".intercalate (arguments.map Kind.name) ++ ")"
  | .failed name reason => "'" ++ name ++ "' failed: " ++ reason

/-- One signature of a function. Without parameter kinds it takes any arguments. -/
structure Overload where
  params : Option (List Kind)
  body : List Value → Except String Value

namespace Overload

/-- Converts each argument to the kind at its position. -/
def convertAll? : List Kind → List Value → Option (List Value)
  | [], [] => some []
  | k :: ks, v :: vs => do
    let w ← v.convert? k
    let ws ← convertAll? ks vs
    return w :: ws
  | _, _ => none

/-- The arguments as the body receives them; `none` if they do not fit. -/
def bind? (o : Overload) (args : List Value) : Option (List Value) :=
  match o.params with
  | none => some args
  | some kinds => convertAll? kinds args

theorem map_kind_of_convertAll? {kinds : List Kind} {args bound : List Value}
    (h : convertAll? kinds args = some bound) : bound.map Value.kind = kinds := by
  induction kinds generalizing args bound with
  | nil => cases args <;> simp_all [convertAll?]
  | cons k ks ih =>
    cases args with
    | nil => simp [convertAll?] at h
    | cons v vs =>
      simp only [convertAll?, Option.bind_eq_bind, Option.bind_eq_some_iff, Option.pure_def,
        Option.some.injEq] at h
      obtain ⟨w, hw, ws, hws, rfl⟩ := h
      simp [Value.kind_of_convert? hw, ih hws]

end Overload

structure Function where
  name : String
  overloads : List Overload

namespace Function

/-- The first overload that accepts the arguments, with the arguments it binds. -/
def select? (f : Function) (args : List Value) : Option (Overload × List Value) :=
  f.overloads.findSome? fun o => (o.bind? args).map fun bound => (o, bound)

def call (f : Function) (args : List Value) : Except CallError Value :=
  match f.select? args with
  | some (o, bound) => (o.body bound).mapError (.failed f.name)
  | none => .error (.noOverload f.name (args.map Value.kind))

end Function

/-- The functions that references point to, by index. -/
structure Host where
  functions : List Function

/-- Calls the function behind a reference. A reference to no function accepts nothing. -/
def Host.call (host : Host) (ref : FunctionRef) (args : List Value) : Except CallError Value :=
  (host.functions[ref.index]?.getD ⟨ref.name, []⟩).call args

end Formulae
