/-!
The operators of formulas and their symbols.
-/

namespace Formulae

/-- Adding or taking away one. -/
inductive StepOp where
  | increment
  | decrement
  deriving DecidableEq, Repr

def StepOp.symbol : StepOp → String
  | increment => "++"
  | decrement => "--"

def StepOp.delta : StepOp → Int64
  | increment => 1
  | decrement => -1

/-- The operators in front of an operand. -/
inductive UnaryOp where
  | negate
  | invert
  | step (op : StepOp)
  deriving DecidableEq, Repr

def UnaryOp.symbol : UnaryOp → String
  | negate => "-"
  | invert => "!"
  | step op => op.symbol

inductive BinaryOp where
  | add
  | subtract
  | multiply
  | divide
  | exponent
  | modulo
  | and
  | or
  | equal
  | inequal
  | less
  | lessOrEqual
  | greater
  | greaterOrEqual
  deriving DecidableEq, Repr

def BinaryOp.symbol : BinaryOp → String
  | add => "+"
  | subtract => "-"
  | multiply => "*"
  | divide => "/"
  | exponent => "^"
  | modulo => "%"
  | and => "&&"
  | or => "||"
  | equal => "=="
  | inequal => "!="
  | less => "<"
  | lessOrEqual => "<="
  | greater => ">"
  | greaterOrEqual => ">="

def BinaryOp.all : List BinaryOp :=
  [add, subtract, multiply, divide, exponent, modulo, and, or, equal, inequal, less, lessOrEqual,
    greater, greaterOrEqual]

theorem BinaryOp.mem_all (op : BinaryOp) : op ∈ all := by cases op <;> decide

def BinaryOp.ofSymbol? (s : String) : Option BinaryOp := all.find? (·.symbol == s)

theorem BinaryOp.ofSymbol?_symbol (op : BinaryOp) : ofSymbol? op.symbol = some op := by
  cases op <;> rfl

/-- Plain and compound assignment. -/
inductive AssignOp where
  | assign
  | add
  | subtract
  | multiply
  | divide
  | exponent
  | modulo
  | and
  | or
  deriving DecidableEq, Repr

def AssignOp.symbol : AssignOp → String
  | assign => "="
  | add => "+="
  | subtract => "-="
  | multiply => "*="
  | divide => "/="
  | exponent => "^="
  | modulo => "%="
  | and => "&="
  | or => "|="

def AssignOp.all : List AssignOp :=
  [assign, add, subtract, multiply, divide, exponent, modulo, and, or]

theorem AssignOp.mem_all (op : AssignOp) : op ∈ all := by cases op <;> decide

def AssignOp.ofSymbol? (s : String) : Option AssignOp := all.find? (·.symbol == s)

theorem AssignOp.ofSymbol?_symbol (op : AssignOp) : ofSymbol? op.symbol = some op := by
  cases op <;> rfl

/-- What a compound assignment applies to the old value and the operand. -/
def AssignOp.combine? : AssignOp → Option BinaryOp
  | assign => none
  | add => some .add
  | subtract => some .subtract
  | multiply => some .multiply
  | divide => some .divide
  | exponent => some .exponent
  | modulo => some .modulo
  | and => some .and
  | or => some .or

end Formulae
