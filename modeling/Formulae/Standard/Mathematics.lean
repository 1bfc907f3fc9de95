import Formulae.Standard.Commands

/-!
Standard constants and functions of mathematics.
-/

namespace Formulae.Standard

/-- The double nearest to the ratio of a circle to its diameter. -/
def pi : Float := 3.141592653589793

def mathConstants : List (String × Value) :=
  [("Pi", .float pi), ("Deg2Rad", .float (pi / 180)), ("Rad2Deg", .float (180 / pi))]

def mathCommands : List Definition :=
  [⟨"Abs", [.onWord fun i => ((Word.magnitude i).map .int).mapError Fault.message,
      .onFloat fun x => .ok (.float x.abs)]⟩,
    .ofFloat "Acos" Float.acos,
    .ofFloat "Asin" Float.asin,
    .ofFloat "Atan" Float.atan,
    .ofFloat "Cos" Float.cos,
    ⟨"Lerp", [.onFloats3 fun first last t =>
      .ok (.float (first + (last - first) * clamp t 0 1))]⟩,
    ⟨"Log", [.onFloat fun x => .ok (.float x.log),
      .onFloats2 fun x base => .ok (.float (x.log / base.log))]⟩,
    .ofFloat "Log10" Float.log10,
    ⟨"Pow", [.onFloats2 fun x y => .ok (.float (x.pow y))]⟩,
    .ofFloat "Sin" Float.sin,
    .ofFloat "Sqrt" Float.sqrt,
    .ofFloat "Tan" Float.tan]

end Formulae.Standard
