/-!
Binding powers of operators, from the loosest to the tightest.
-/

namespace Formulae

/-- An operator is taken while its left power exceeds the power being parsed at; its
right operand is parsed at its right power. -/
structure Power where
  left : Nat
  right : Nat
  deriving DecidableEq, Repr

namespace Power

def leftAssociative (power : Nat) : Power := ⟨power, power⟩

/-- One below on the right, so that the same operator is taken again there. -/
def rightAssociative (power : Nat) : Power := ⟨power, power - 1⟩

def isRightAssociative (p : Power) : Bool := p.right < p.left

/-- The power at which a whole expression is parsed. -/
def loosest : Nat := 0

def assignment : Power := rightAssociative 10
def choice : Power := rightAssociative 20
def disjunction : Power := leftAssociative 30
def conjunction : Power := leftAssociative 40
def equality : Power := leftAssociative 50
def comparison : Power := leftAssociative 60
def addition : Power := leftAssociative 70
def multiplication : Power := leftAssociative 80
def exponentiation : Power := rightAssociative 90
def step : Power := leftAssociative 110
def call : Power := leftAssociative 150
def member : Power := leftAssociative 200

/-- The power at which the operand of a unary operator is parsed. -/
def unaryOperand : Nat := 100

end Power

end Formulae
