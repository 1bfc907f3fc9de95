import Formulae.Scope.Variables

/-!
Scopes: variables, and layers over them.

A layer of bindings hides names for as long as it is there; writes to its names stay
in it and all others go through. A read-only layer refuses every write, and with it
the layers above that would pass a write on or reach into a shared object.
-/

namespace Formulae

inductive Scope where
  | store (vars : Variables)
  | overlay (bindings : Std.TreeMap String Value) (below : Scope)
  | readOnly (below : Scope)

namespace Scope

def get (name : String) : Scope → Value
  | store vars => vars.get name
  | overlay bindings below => bindings[name]?.getD (below.get name)
  | readOnly below => below.get name

def set (name : String) (v : Value) : Scope → Except Refusal Scope
  | store vars => (vars.set name v).map store
  | overlay bindings below =>
    if bindings.contains name then .ok (overlay (bindings.insert name v) below)
    else (below.set name v).map (overlay bindings)
  | readOnly _ => .error .readOnly

/-- Whether writes into shared objects are refused too. -/
def isReadOnly : Scope → Bool
  | store _ => false
  | overlay _ below => below.isReadOnly
  | readOnly _ => true

/-- The variables under all layers. -/
def vars : Scope → Variables
  | store vars => vars
  | overlay _ below => below.vars
  | readOnly below => below.vars

/-- The scope without its top layer. -/
def beneath : Scope → Scope
  | store vars => store vars
  | overlay _ below => below
  | readOnly below => below

end Scope

end Formulae
