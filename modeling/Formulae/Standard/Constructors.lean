import Formulae.Standard.Routine

/-!
Standard constructors of vectors, quaternions and colors.

Without arguments every component is zero. A color needs no opacity, and neither does
a vector of four its last component.
-/

namespace Formulae.Standard

def rgba (r g b a : Float) : Value :=
  .color ⟨r.toFloat32, g.toFloat32, b.toFloat32, a.toFloat32⟩

def constructors : List Definition :=
  [⟨"Vector2", [.nothing (.vector2 #v[0, 0]), .onFloats2 fun x y => .ok (.vector2 #v[x, y])]⟩,
    ⟨"Vector3", [.nothing (.vector3 #v[0, 0, 0]),
      .onFloats3 fun x y z => .ok (.vector3 #v[x, y, z])]⟩,
    ⟨"Vector4", [.nothing (.vector4 #v[0, 0, 0, 0]),
      .onFloats3 fun x y z => .ok (.vector4 #v[x, y, z, 0]),
      .onPadded 4 fun x y z w => .ok (.vector4 #v[x, y, z, w])]⟩,
    ⟨"Quaternion", [.nothing (.quaternion #v[0, 0, 0, 0]),
      .onPadded 4 fun x y z w => .ok (.quaternion #v[x, y, z, w])]⟩,
    ⟨"Color", [.nothing (rgba 0 0 0 0), .onPadded 3 fun r g b _ => .ok (rgba r g b 1),
      .onPadded 4 fun r g b a => .ok (rgba r g b a)]⟩]

end Formulae.Standard
