import Formulae.Host.Object

/-!
Members of containers: fields of objects, and items or components of values.

A component is named by an axis or by its index; a list and a text also have a
length. Reading an absent member yields the absent value. A write to a member gives
the container as it then is, and one that is refused leaves it as it was.
-/

namespace Formulae.Value

/-- The index of an axis name. -/
def axis? : String → Option Nat
  | "x" => some 0
  | "y" => some 1
  | "z" => some 2
  | "w" => some 3
  | _ => none

/-- The item or component at `index`. -/
def element? (index : Nat) : Value → Option Value
  | list items => items[index]?
  | string s => s.toList[index]?.map fun c => string (String.singleton c)
  | color c => c.components[index]?.map fun x => float x.toFloat
  | vector2 v => v[index]?.map float
  | vector3 v => v[index]?.map float
  | vector4 v => v[index]?.map float
  | quaternion v => v[index]?.map float
  | _ => none

def named? (heap : Heap) (name : String) (container : Value) : Option Value :=
  match container with
  | object ref => heap.field? ref name
  | color _ => (Color.indexOf? name).bind fun i => container.element? i.val
  | string s => if name = "length" then some (int (.ofNat s.length)) else inOrder
  | list items => if name = "length" then some (int (.ofNat items.length)) else inOrder
  | _ => inOrder
where
  inOrder := (axis? name).bind fun i => container.element? i

/-- The index an integer key stands for. -/
def index? (i : Int64) : Option Nat := if 0 ≤ i.toInt then some i.toInt.toNat else none

def member? (heap : Heap) (container key : Value) : Option Value :=
  match key with
  | string name => container.named? heap name
  | int i => (index? i).bind fun i => container.element? i
  | _ => none

/-- The member at `key`; the absent value if there is none. -/
def lookup (heap : Heap) (container key : Value) : Value := (container.member? heap key).getD empty

/-- The component that `key` addresses, by name or index. -/
def component? (names : String → Option Nat) : Value → Option Nat
  | string name => names name
  | int i => index? i
  | _ => none

/-- Writes a number to the part at `index`, if there is one, as `convert` makes it. -/
def writePart {α : Type} {n : Nat} (convert : Float → α) (parts : Vector α n)
    (index : Option Nat) (value : Value) : Write (Vector α n) :=
  match index with
  | none => .refused .notFound parts
  | some i =>
    if inside : i < n then
      match value.asFloat? with
      | some x => .done (parts.set i (convert x))
      | none => .refused .typeMismatch parts
    else .refused .notFound parts

def writeAxis {n : Nat} (v : Vector Float n) (key value : Value) : Write (Vector Float n) :=
  writePart id v (component? axis? key) value

/-- Writes a number to the channel that `name` stands for. -/
def writeChannel (c : Color) (name : String) (value : Value) : Write Color :=
  match Color.indexOf? name, value.asFloat? with
  | none, _ => .refused .notFound c
  | some _, none => .refused .typeMismatch c
  | some i, some x => .done (c.set i x.toFloat32)

/-- Writes a number to a color. A channel that is named is written in place. By its index it
is written among the components, of which the color is made again even if they refuse it. -/
def writeColor (c : Color) (key value : Value) : Write Color :=
  match key with
  | string name => writeChannel c name value
  | _ => (writePart Float.toFloat32 c.components (component? axis? key) value).map
      Color.ofComponents

/-- Writes the member at `key` of a value, and gives the value as it then is. Every copy of
it elsewhere stays as it was; the fields of objects are not held in values. -/
def withMember (container key value : Value) : Write Value :=
  match container with
  | string _ => .refused .readOnly container
  | list items =>
    match key.asInt?.bind index? with
    | some i =>
      if i < items.length then .done (list (items.set i value)) else .refused .notFound container
    | none => .refused .notFound container
  | color c => (writeColor c key value).map color
  | vector2 v => (writeAxis v key value).map vector2
  | vector3 v => (writeAxis v key value).map vector3
  | vector4 v => (writeAxis v key value).map vector4
  | quaternion v => (writeAxis v key value).map quaternion
  | _ => .refused .notFound container

/-- Writes the member at `key`: to the heap if the container is an object, and
otherwise to the container. Gives both as they then are. -/
def setMember (heap : Heap) (container key value : Value) : Write (Value × Heap) :=
  match container, key with
  | object ref, string name =>
    match heap.write ref name value with
    | .ok heap => .done (container, heap)
    | .error refusal => .refused refusal (container, heap)
  | object _, _ => .refused .notFound (container, heap)
  | _, _ => (container.withMember key value).map fun container => (container, heap)

theorem atomic_writePart {α : Type} {n : Nat} (convert : Float → α) (parts : Vector α n)
    (index : Option Nat) (v : Value) : (writePart convert parts index v).Atomic parts := by
  unfold writePart
  split
  · rfl
  · split
    · split
      · trivial
      · rfl
    · rfl

theorem atomic_writeColor (c : Color) (key v : Value) : (writeColor c key v).Atomic c := by
  unfold writeColor
  split
  · unfold writeChannel
    split
    · rfl
    · rfl
    · trivial
  · have atomic := (atomic_writePart Float.toFloat32 c.components (component? axis? key) v).map
      Color.ofComponents
    rwa [Color.ofComponents_components] at atomic

theorem atomic_withMember (container key v : Value) :
    (container.withMember key v).Atomic container := by
  cases container with
  | list items =>
    unfold withMember
    dsimp only
    split
    · split
      · trivial
      · rfl
    · rfl
  | color c => exact (atomic_writeColor c key v).map color
  | vector2 u => exact (atomic_writePart id u _ v).map vector2
  | vector3 u => exact (atomic_writePart id u _ v).map vector3
  | vector4 u => exact (atomic_writePart id u _ v).map vector4
  | quaternion u => exact (atomic_writePart id u _ v).map quaternion
  | _ => rfl

theorem atomic_setMember (heap : Heap) (container key v : Value) :
    (container.setMember heap key v).Atomic (container, heap) := by
  unfold setMember
  split
  · split
    · trivial
    · rfl
  · rfl
  · exact (atomic_withMember container key v).map fun container => (container, heap)

end Formulae.Value
