import Formulae.Text.Free
import Formulae.Tree.Basic

/-!
The canonical text of a tree.

Binary operators stand between spaces, all other operators next to their operand;
groups and templates are reproduced. A sign before a sign keeps its distance, so
that the two do not read as a step.
-/

namespace Formulae

namespace Tree

/-- Puts an operator before the text of its operand. -/
def prepend (symbol operand : List Char) : List Char :=
  match operand with
  | '+' :: _ | '-' :: _ => symbol ++ ' ' :: operand
  | _ => symbol ++ operand

/-- Puts an operator between the texts of its operands. -/
def between (left : List Char) (symbol : String) (right : List Char) : List Char :=
  left ++ ' ' :: symbol.toList ++ ' ' :: right

mutual

def chars : Tree → List Char
  | literal _ text _ => text.toList
  | constant _ s _ | provided _ s _ | name _ s => s.toList
  | group _ inner => '(' :: chars inner ++ [')']
  | unary _ op operand => prepend op.symbol.toList (chars operand)
  | binary _ op left right => between (chars left) op.symbol (chars right)
  | assign _ op target value => between (chars target) op.symbol (chars value)
  | step _ op operand => chars operand ++ op.symbol.toList
  | member _ container selector => chars container ++ selectorChars selector
  | call _ callee args => chars callee ++ '(' :: argumentChars args ++ [')']
  | choice _ condition yes no => between (between (chars condition) "?" (chars yes)) ":" (chars no)
  | template _ parts => '\x60' :: partChars parts ++ ['\x60']

def selectorChars : Selector → List Char
  | .named s => '.' :: s.toList
  | .keyed key => '[' :: chars key ++ [']']

/-- Arguments, separated by a comma and a space. -/
def argumentChars : List Tree → List Char
  | [] => []
  | [t] => chars t
  | t :: ts => chars t ++ ',' :: ' ' :: argumentChars ts

/-- The body of a template. -/
def partChars : List Part → List Char
  | [] => []
  | .text s :: ps => Text.Free.encode s.toList ++ partChars ps
  | .embed t :: ps => '\x7b' :: chars t ++ '\x7d' :: partChars ps

end

def text (t : Tree) : String := String.ofList t.chars

end Tree

end Formulae
