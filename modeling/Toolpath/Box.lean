import Toolpath.Convention

/-!
# Bounding boxes

The axis-aligned box around the sampled toolpath. The empty box has its corners inside out, so
that the first point added becomes both of them.
-/

namespace Toolpath

/-- The box between two corners. -/
structure Box (α : Type) where
  min : Vec3 α
  max : Vec3 α
  deriving DecidableEq

namespace Box

variable {α : Type} [Scalar α]

/-- The box around no point. -/
def empty : Box α :=
  let top : α := Scalar.largest
  ⟨⟨top, top, top⟩, ⟨-top, -top, -top⟩⟩

/-- The box stretched to hold one more point. -/
def add (box : Box α) (p : Vec3 α) : Box α :=
  ⟨box.min.zipWith Scalar.least p, box.max.zipWith Scalar.greatest p⟩

/-- The box around some points. -/
def ofPoints (points : List (Vec3 α)) : Box α := points.foldl add empty

/-- Whether the corners are finite and in order; so no box is valid before its first point. -/
def IsValid (box : Box α) : Prop :=
  (∀ x ∈ box.min.toList ++ box.max.toList, Scalar.isFinite x = true) ∧
    box.min.x ≤ box.max.x ∧ box.min.y ≤ box.max.y ∧ box.min.z ≤ box.max.z

instance (box : Box α) : Decidable box.IsValid := by
  unfold IsValid
  infer_instance

/-- The lengths of the sides; zero for a box that is not valid. -/
def size (box : Box α) : Vec3 α := if box.IsValid then box.max - box.min else .zero

/-- The middle of the box; the zero point for a box that is not valid. -/
def center (box : Box α) : Vec3 α :=
  if box.IsValid then (box.min + box.max).scale 0.5 else .zero

/-- The radius of the sphere through the corners. -/
def sphereRadius (box : Box α) : α := box.size.length * 0.5

/-- The box grown or shrunk about its middle; a box that is not valid stays. -/
def scaled (box : Box α) (factor : α) : Box α :=
  if box.IsValid then
    let half := (box.size.scale 0.5).scale factor
    ⟨box.center - half, box.center + half⟩
  else box

/-- The box in the coordinates of a renderer whose second axis points up; a box that is not
valid stays. -/
def toYUp (box : Box α) : Box α :=
  if box.IsValid then
    ⟨⟨box.min.x, box.min.z, -box.max.y⟩, ⟨box.max.x, box.max.z, -box.min.y⟩⟩
  else box

end Box

end Toolpath
