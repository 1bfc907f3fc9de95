import Formulae.Number.Decimal

/-!
Linear colors with an opacity, one single-precision number for each component.
-/

namespace Formulae

structure Color where
  r : Float32
  g : Float32
  b : Float32
  a : Float32

namespace Color

/-- Opaque black. -/
def black : Color := ⟨0, 0, 0, 1⟩

instance : Inhabited Color := ⟨black⟩

def components (c : Color) : Vector Float32 4 := #v[c.r, c.g, c.b, c.a]

/-- The color of four components. -/
def ofComponents (parts : Vector Float32 4) : Color :=
  ⟨parts.get 0, parts.get 1, parts.get 2, parts.get 3⟩

/-- The position of a component name in `components`. -/
def indexOf? : String → Option (Fin 4)
  | "r" => some 0
  | "g" => some 1
  | "b" => some 2
  | "a" => some 3
  | _ => none

/-- The color with the component at `index` replaced. -/
def set (c : Color) (index : Fin 4) (x : Float32) : Color :=
  match index with
  | 0 => { c with r := x }
  | 1 => { c with g := x }
  | 2 => { c with b := x }
  | 3 => { c with a := x }

@[simp] theorem ofComponents_components (c : Color) : ofComponents c.components = c := rfl

@[simp] theorem components_ofComponents (parts : Vector Float32 4) :
    (ofComponents parts).components = parts := by
  ext i bound
  match i with
  | 0 | 1 | 2 | 3 => rfl

theorem ofComponents_set (c : Color) (index : Fin 4) (x : Float32) :
    ofComponents (c.components.set index x) = c.set index x := by
  match index with
  | 0 | 1 | 2 | 3 => rfl

/-- Applies `op` to each component in double precision. -/
def map (op : Float → Float) (c : Color) : Color :=
  let lift (x : Float32) := (op x.toFloat).toFloat32
  ⟨lift c.r, lift c.g, lift c.b, lift c.a⟩

/-- Combines two colors component by component in double precision. -/
def zip (op : Float → Float → Float) (c d : Color) : Color :=
  let lift (x y : Float32) := (op x.toFloat y.toFloat).toFloat32
  ⟨lift c.r d.r, lift c.g d.g, lift c.b d.b, lift c.a d.a⟩

/-- Equality of components as numbers. -/
def equal (c d : Color) : Bool := c.r == d.r && c.g == d.g && c.b == d.b && c.a == d.a

def text (c : Color) : String :=
  "RGBA(" ++ ", ".intercalate (c.components.toList.map Decimal.ofFloat32) ++ ")"

end Color

end Formulae
