import Toolpath.Scalar

/-!
# Points and directions

Points of the machine have three coordinates, points of a working plane two. Products of a
vector with itself are summed from the first coordinate to the last.
-/

namespace Toolpath

/-- A machine axis. -/
inductive Axis where
  | x
  | y
  | z
  deriving DecidableEq

/-- A point or direction in a working plane. -/
structure Vec2 (α : Type) where
  x : α
  y : α
  deriving DecidableEq

/-- A point or direction in machine coordinates. -/
structure Vec3 (α : Type) where
  x : α
  y : α
  z : α
  deriving DecidableEq

namespace Axis

/-- The place of an axis among the coordinates of a point. -/
def index : Axis → Nat
  | x => 0
  | y => 1
  | z => 2

/-- The letter of the words that give a coordinate on the axis. -/
def letter : Axis → Char
  | x => 'X'
  | y => 'Y'
  | z => 'Z'

/-- The letter of the words that give an arc centre along the axis. -/
def centerLetter : Axis → Char
  | x => 'I'
  | y => 'J'
  | z => 'K'

end Axis

namespace Vec2

variable {α : Type} [Arithmetic α]

instance : Add (Vec2 α) := ⟨fun a b => ⟨a.x + b.x, a.y + b.y⟩⟩

instance : Sub (Vec2 α) := ⟨fun a b => ⟨a.x - b.x, a.y - b.y⟩⟩

/-- A vector stretched by a factor. -/
def scale (v : Vec2 α) (factor : α) : Vec2 α := ⟨v.x * factor, v.y * factor⟩

/-- The squared length of a vector. -/
def lengthSq (v : Vec2 α) : α := v.x * v.x + v.y * v.y

/-- The length of a vector. -/
def length {β : Type} [Scalar β] (v : Vec2 β) : β := Scalar.sqrt v.lengthSq

end Vec2

namespace Vec3

variable {α : Type}

/-- The coordinate on an axis. -/
def get (v : Vec3 α) : Axis → α
  | .x => v.x
  | .y => v.y
  | .z => v.z

/-- The vector with the given coordinate on each axis. -/
def ofAxes (f : Axis → α) : Vec3 α := ⟨f .x, f .y, f .z⟩

@[simp] theorem get_ofAxes (f : Axis → α) (axis : Axis) : (ofAxes f).get axis = f axis := by
  cases axis <;> rfl

/-- A vector is known by its coordinates. -/
theorem eq_of_get {u v : Vec3 α} (h : ∀ axis, u.get axis = v.get axis) : u = v := by
  show Vec3.mk (u.get .x) (u.get .y) (u.get .z) = _
  rw [h, h, h]
  rfl

/-- Apply a function to every coordinate. -/
def map {β : Type} (f : α → β) (v : Vec3 α) : Vec3 β := ⟨f v.x, f v.y, f v.z⟩

/-- Combine two vectors coordinate by coordinate. -/
def zipWith (f : α → α → α) (a b : Vec3 α) : Vec3 α := ⟨f a.x b.x, f a.y b.y, f a.z b.z⟩

/-- The coordinates from the first axis to the last. -/
def toList (v : Vec3 α) : List α := [v.x, v.y, v.z]

section Arithmetic

variable [Arithmetic α]

/-- The machine's zero point. -/
def zero : Vec3 α := ⟨0.0, 0.0, 0.0⟩

instance : Add (Vec3 α) := ⟨zipWith (· + ·)⟩

instance : Sub (Vec3 α) := ⟨zipWith (· - ·)⟩

/-- A vector stretched by a factor. -/
def scale (v : Vec3 α) (factor : α) : Vec3 α := v.map (· * factor)

/-- The squared length of a vector. -/
def lengthSq (v : Vec3 α) : α := v.x * v.x + v.y * v.y + v.z * v.z

/-- The greatest magnitude of a coordinate. -/
def maxAbs (v : Vec3 α) : α :=
  Scalar.larger (Arithmetic.abs v.x) (Scalar.larger (Arithmetic.abs v.y) (Arithmetic.abs v.z))

/-- The point at `ratio` of the way from `a` to `b`. -/
def lerp (a b : Vec3 α) (ratio : α) : Vec3 α := a.scale (1.0 - ratio) + b.scale ratio

end Arithmetic

section Scalar

variable [Scalar α]

/-- The length of a vector. -/
def length (v : Vec3 α) : α := Scalar.sqrt v.lengthSq

/-- The distance between two points. -/
def distance (a b : Vec3 α) : α := (a - b).length

/-- The vector divided by its length; zero where that is no positive finite stretch. -/
def direction (v : Vec3 α) : Vec3 α :=
  let stretch := (1.0 : α) / v.length
  if Scalar.isFinite stretch ∧ 0.0 < stretch then v.scale stretch else zero

end Scalar

end Vec3

end Toolpath
