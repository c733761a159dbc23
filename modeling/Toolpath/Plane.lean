import Toolpath.Vector

/-!
# Working planes

Arcs lie in one of the three planes through two machine axes. The axes of a plane follow each
other in the cyclic order of the machine axes, so a counter-clockwise turn looks the same seen
against the normal of each plane.
-/

namespace Toolpath

/-- The plane that arcs are drawn in. -/
inductive Plane where
  | xy
  | yz
  | zx
  deriving DecidableEq

namespace Plane

/-- The axis of the first in-plane coordinate. -/
def firstAxis : Plane → Axis
  | xy => .x
  | yz => .y
  | zx => .z

/-- The axis of the second in-plane coordinate. -/
def secondAxis : Plane → Axis
  | xy => .y
  | yz => .z
  | zx => .x

/-- The axis along the normal. -/
def normalAxis : Plane → Axis
  | xy => .z
  | yz => .x
  | zx => .y

variable {α : Type}

/-- In-plane coordinates of a machine point. -/
def project (plane : Plane) (p : Vec3 α) : Vec2 α :=
  ⟨p.get plane.firstAxis, p.get plane.secondAxis⟩

/-- Coordinate of a machine point along the normal. -/
def height (plane : Plane) (p : Vec3 α) : α := p.get plane.normalAxis

/-- The machine point with the given in-plane coordinates and height. -/
def compose (plane : Plane) (p : Vec2 α) (height : α) : Vec3 α :=
  match plane with
  | xy => ⟨p.x, p.y, height⟩
  | yz => ⟨height, p.x, p.y⟩
  | zx => ⟨p.y, height, p.x⟩

@[simp] theorem project_compose (plane : Plane) (p : Vec2 α) (h : α) :
    plane.project (plane.compose p h) = p := by
  cases plane <;> rfl

@[simp] theorem height_compose (plane : Plane) (p : Vec2 α) (h : α) :
    plane.height (plane.compose p h) = h := by
  cases plane <;> rfl

@[simp] theorem compose_project (plane : Plane) (p : Vec3 α) :
    plane.compose (plane.project p) (plane.height p) = p := by
  cases plane <;> rfl

end Plane

end Toolpath
