import Toolpath.Vector

/-!
# Axis conventions

A renderer either takes machine coordinates as they are, or wants the second axis to point up.
-/

namespace Toolpath

/-- Which axis of the renderer points up. -/
inductive AxisConvention where
  | zUp
  | yUp
  deriving DecidableEq

/-- A machine point in the renderer's coordinates. -/
def AxisConvention.remap {α : Type} [Arithmetic α] (convention : AxisConvention) (p : Vec3 α) :
    Vec3 α :=
  match convention with
  | .zUp => p
  | .yUp => ⟨p.x, p.z, -p.y⟩

end Toolpath
