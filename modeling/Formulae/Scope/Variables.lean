import Formulae.Host.Object

/-!
Variables: names bound to values, some of them fixed and some of one kind.

Names are declared; a write binds a declared name anew and declares none.
-/

namespace Formulae

structure Variable where
  value : Value
  readOnly : Bool := false
  /-- The kind that every write must have. -/
  kind : Option Kind := none

/-- The variable after a write. -/
def Variable.write (x : Variable) (v : Value) : Except Refusal Variable :=
  if x.readOnly then .error .readOnly
  else
    match x.kind with
    | none => .ok { x with value := v }
    | some kind =>
      match v.convert? kind with
      | some v => .ok { x with value := v }
      | none => .error .typeMismatch

abbrev Variables := Std.TreeMap String Variable

namespace Variables

/-- The value of a name; the absent value for an unknown one. -/
def get (vars : Variables) (name : String) : Value := (vars[name]?.map Variable.value).getD .empty

def set (vars : Variables) (name : String) (v : Value) : Except Refusal Variables :=
  match vars[name]? with
  | none => .error .notFound
  | some x => (x.write v).map fun x => vars.insert name x

theorem getElem?_set {vars after : Variables} {name : String} {v : Value}
    (h : vars.set name v = .ok after) (other : String) :
    after[other]? = if other = name then (vars[name]?.bind fun x => (x.write v).toOption)
      else vars[other]? := by
  unfold set at h
  split at h
  · cases h
  · next x found =>
    cases hw : x.write v with
    | error e => simp [hw, Except.map] at h
    | ok y =>
      simp only [hw, Except.map, Except.ok.injEq] at h
      subst h
      by_cases same : other = name
      · simp [same, found, hw, Except.toOption]
      · simp [same, Std.TreeMap.getElem?_insert, Ne.symm same]

end Variables

end Formulae
