import Formulae.Number.Rounding
import Formulae.Number.Word
import Formulae.Standard.Routine

/-!
Standard commands: rounding, limits and signs.
-/

namespace Formulae.Standard

/-- A function of one number whose result is a word. -/
def Definition.toWord (name : String) (f : Float → Float) : Definition :=
  ⟨name, [.onFloat fun x =>
    match Rounding.toWord? (f x) with
    | some i => .ok (.int i)
    | none => .error (Decimal.ofFloat (f x) ++ " is outside the integer range")]⟩

/-- The lower limit is looked at first. -/
def clamp {α : Type} [LT α] [DecidableRel (α := α) (· < ·)] (x low high : α) : α :=
  if x < low then low else if high < x then high else x

def larger (i j : Int64) : Int64 := if i < j then j else i

def smaller (i j : Int64) : Int64 := if j < i then j else i

def commands : List Definition :=
  [.ofFloat "Ceil" Float.ceil,
    .toWord "CeilToInt" Float.ceil,
    ⟨"Clamp", [.onWords3 fun i low high => .ok (.int (clamp i low high)),
      .onFloats3 fun x low high => .ok (.float (clamp x low high))]⟩,
    .ofFloat "Floor" Float.floor,
    .toWord "FloorToInt" Float.floor,
    ⟨"Max", [.onWords2 fun i j => .ok (.int (larger i j)),
      .onFloats2 fun x y => .ok (.float (Rounding.larger x y))]⟩,
    ⟨"Min", [.onWords2 fun i j => .ok (.int (smaller i j)),
      .onFloats2 fun x y => .ok (.float (Rounding.smaller x y))]⟩,
    .ofFloat "Round" Rounding.halfEven,
    .toWord "RoundToInt" Rounding.halfEven,
    .ofFloat "Sign" fun x => if 0 ≤ x then 1 else -1]

end Formulae.Standard
