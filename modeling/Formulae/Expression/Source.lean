import Formulae.Expression.Basic

/-!
Settings: a fixed value, or an expression. One that is made from a text only reads.
-/

namespace Formulae

inductive Source where
  | value (v : Value)
  | expression (e : Expression)

namespace Source

instance : Inhabited Source := ⟨value .empty⟩

def ofText (presets : Presets) (content : String) : Source :=
  expression (.compile presets .readOnly content)

def resolve (host : Host) : Source → Eval Value
  | value v => return v
  | expression e => e.execute host

def resolveExpecting (host : Host) (kind : Kind) (s : Source) : Eval Value :=
  Expression.expecting kind (s.resolve host)

end Source

end Formulae
