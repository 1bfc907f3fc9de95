import Formulae.Evaluation.Error
import Formulae.Operator
import Formulae.Value.Arithmetic
import Formulae.Value.Comparison

/-!
Operators applied to values.
-/

namespace Formulae

/-- An operator that does not apply to the operands. -/
def EvalError.inapplicable (symbol : String) (operands : List Value) : EvalError :=
  .mismatch symbol (operands.map Value.typeName)

namespace Operation

/-- The value of an arithmetic answer; no answer is a mismatch of the operands. -/
def settle (symbol : String) (operands : List Value) : Value.Answer → Except EvalError Value
  | .ok (some v) => .ok v
  | .ok none => .error (.inapplicable symbol operands)
  | .error fault => .error (.arithmetic symbol fault)

/-- Both operands have been evaluated, and both have to be booleans. -/
def logic (symbol : String) (op : Bool → Bool → Bool) (a b : Value) : Except EvalError Value :=
  match a.asBool?, b.asBool? with
  | some p, some q => .ok (.bool (op p q))
  | _, _ => .error (.inapplicable symbol [a, b])

/-- Both operands have to be ordered. -/
def order (symbol : String) (accepts : Ordering → Bool) (a b : Value) : Except EvalError Value :=
  match a.compare? b with
  | some ordering => .ok (.bool (accepts ordering))
  | none => .error (.inapplicable symbol [a, b])

def binary (op : BinaryOp) (a b : Value) : Except EvalError Value :=
  match op with
  | .add => settle op.symbol [a, b] (a.add b)
  | .subtract => settle op.symbol [a, b] (a.subtract b)
  | .multiply => settle op.symbol [a, b] (a.multiply b)
  | .divide => settle op.symbol [a, b] (a.divide b)
  | .exponent => settle op.symbol [a, b] (a.exponent b)
  | .modulo => settle op.symbol [a, b] (a.modulo b)
  | .and => logic op.symbol (· && ·) a b
  | .or => logic op.symbol (· || ·) a b
  | .equal => .ok (.bool (a.equal b))
  | .inequal => .ok (.bool !(a.equal b))
  | .less => order op.symbol Ordering.isLT a b
  | .lessOrEqual => order op.symbol Ordering.isLE a b
  | .greater => order op.symbol Ordering.isGT a b
  | .greaterOrEqual => order op.symbol Ordering.isGE a b

def negate (v : Value) : Except EvalError Value :=
  settle UnaryOp.negate.symbol [v] v.negate

def invert (v : Value) : Except EvalError Value :=
  match v.asBool? with
  | some b => .ok (.bool !b)
  | none => .error (.inapplicable UnaryOp.invert.symbol [v])

/-- The value a step makes of an old one. A mismatch names the old value only. -/
def step (op : StepOp) (old : Value) : Except EvalError Value :=
  settle op.symbol [old] (old.add (.int op.delta))

end Operation

end Formulae
