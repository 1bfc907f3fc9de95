import Formulae.Dialect.Power
import Formulae.Dialect.Vocabulary
import Formulae.Operator

/-!
Dialects: the names and operators that a parser knows.

The four standard dialects differ in their names and in whether they have
assignment; all of them have the same other operators.
-/

namespace Formulae

/-- What an operator means where an operand is expected. -/
inductive OpeningRule where
  /-- An expression between parentheses. -/
  | group
  /-- A template up to the next backtick. -/
  | template
  | unary (op : UnaryOp)
  deriving DecidableEq, Repr

/-- What an operator means behind an operand. -/
inductive FollowingRule where
  | binary (op : BinaryOp)
  | assign (op : AssignOp)
  | step (op : StepOp)
  | access
  | lookup
  | call
  | choice
  deriving DecidableEq, Repr

structure Dialect where
  /-- Names that stand for a fixed value. -/
  constants : Bindings := ∅
  /-- Names whose value is provided at each evaluation. -/
  providers : Std.TreeMap String Provider := ∅
  opening : Std.TreeMap String OpeningRule := ∅
  following : Std.TreeMap String (Power × FollowingRule) := ∅

namespace Dialect

/-- No names and no operators. -/
def bare : Dialect := {}

def openingRules : List (String × OpeningRule) :=
  [("(", .group), ("\x60", .template), ("-", .unary .negate), ("!", .unary .invert),
    ("++", .unary (.step .increment)), ("--", .unary (.step .decrement))]

def followingRules : List (String × Power × FollowingRule) :=
  [("?", .choice, .choice),
    ("||", .disjunction, .binary .or),
    ("&&", .conjunction, .binary .and),
    ("==", .equality, .binary .equal),
    ("!=", .equality, .binary .inequal),
    ("<", .comparison, .binary .less),
    ("<=", .comparison, .binary .lessOrEqual),
    (">", .comparison, .binary .greater),
    (">=", .comparison, .binary .greaterOrEqual),
    ("+", .addition, .binary .add),
    ("-", .addition, .binary .subtract),
    ("*", .multiplication, .binary .multiply),
    ("/", .multiplication, .binary .divide),
    ("%", .multiplication, .binary .modulo),
    ("^", .exponentiation, .binary .exponent),
    ("++", .step, .step .increment),
    ("--", .step, .step .decrement),
    ("(", .call, .call),
    (".", .member, .access),
    ("[", .member, .lookup)]

def assignmentRules : List (String × Power × FollowingRule) :=
  AssignOp.all.map fun op => (op.symbol, .assignment, .assign op)

def withOpening (d : Dialect) (rules : List (String × OpeningRule)) : Dialect :=
  { d with opening := d.opening.insertMany rules }

def withFollowing (d : Dialect) (rules : List (String × Power × FollowingRule)) : Dialect :=
  { d with following := d.following.insertMany rules }

/-- Adds names for values; a name that is there already is bound anew. -/
def withConstants (d : Dialect) (names : Bindings) : Dialect :=
  { d with constants := d.constants.insertMany names }

def withProviders (d : Dialect) (names : Std.TreeMap String Provider) : Dialect :=
  { d with providers := d.providers.insertMany names }

/-- All operators but assignment. -/
def withOperators (d : Dialect) : Dialect :=
  (d.withOpening openingRules).withFollowing followingRules

/-- Every name of the host, and no assignment. -/
def plain (names : Vocabulary) : Dialect :=
  bare.withConstants names.constants
    |>.withProviders names.providers
    |>.withConstants names.commands
    |>.withConstants names.constructors
    |>.withConstants names.mathConstants
    |>.withConstants names.mathCommands
    |>.withOperators

/-- The plain dialect; writes are refused when an expression runs, not when it is read. -/
def readOnly (names : Vocabulary) : Dialect := plain names

/-- The plain dialect and assignment. -/
def assignment (names : Vocabulary) : Dialect := (plain names).withFollowing assignmentRules

/-- No commands, no constructors and no assignment. -/
def template (names : Vocabulary) : Dialect :=
  bare.withConstants names.constants
    |>.withProviders names.providers
    |>.withConstants names.mathConstants
    |>.withConstants names.mathCommands
    |>.withOperators

end Dialect

end Formulae
