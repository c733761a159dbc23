import Toolpath.Track

/-!
# Vertex buffers

A renderer gets the vertices of all closed runs in one buffer, four numbers each: the coordinates
in the renderer's convention, then the pace as a number.
-/

namespace Toolpath

/-- The number that stands for a pace. -/
def Pace.ordinal : Pace → Nat
  | rapid => 0
  | normal => 1

/-- A point and the number of its pace. -/
structure Vertex (α : Type) where
  position : Vec3 α
  pace : α
  deriving DecidableEq

/-- The vertices and the box around them, both in the renderer's coordinates. -/
structure VertexBuffer (α : Type) where
  vertices : List (Vertex α)
  box : Box α
  deriving DecidableEq

namespace VertexBuffer

variable {α : Type} [Scalar α]

/-- The vertices of the closed runs of a track. -/
def ofTrack (t : Track α) (convention : AxisConvention) : VertexBuffer α :=
  let vertices := t.vertices.map fun (p, pace) =>
    (⟨convention.remap p, Scalar.ofCount pace.ordinal⟩ : Vertex α)
  ⟨vertices, .ofPoints (vertices.map (·.position))⟩

/-- The numbers of the buffer in order. -/
def numbers {α : Type} (b : VertexBuffer α) : List α :=
  b.vertices.flatMap fun v => v.position.toList ++ [v.pace]

/-- The bytes of the buffer: four per number, the lowest first. -/
def bytes (b : VertexBuffer Float32) : List UInt8 :=
  b.numbers.flatMap fun (x : Float32) =>
    let bits := x.toBits
    [bits.toUInt8, (bits >>> 8).toUInt8, (bits >>> 16).toUInt8, (bits >>> 24).toUInt8]

end VertexBuffer

end Toolpath
