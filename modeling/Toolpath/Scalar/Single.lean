import Toolpath.Scalar
import Toolpath.Number.Machine

/-!
# Single-precision scalars

The numbers the planner runs on. Sums, products, quotients and square roots round once. Sine,
cosine and the direction angle are computed in double precision and rounded once; the diagonal
too, where an infinite side makes it infinite. Chords are counted in double precision.
-/

namespace Toolpath

/-- The least count not below a double-precision number. -/
def ceilCount? (x : Float) : Option Nat :=
  match Number.doubleDatum x with
  | .finite negative mantissa exponent =>
    if negative then some 0 else some ((Number.Ratio.ofNat mantissa).scale 2 exponent).ceil
  | _ => none

instance : WideScalar Float where
  decLt := inferInstance
  decLe := inferInstance
  abs := Float.abs
  pi := 3.141592653589793
  arccos := Float.acos
  ceilCount? := ceilCount?

/-- The length of the diagonal over two sides, infinite when a side is. -/
def singleHypot (x y : Float32) : Float32 :=
  if x.isInf || y.isInf then Number.singleOfDatum (.infinite false)
  else
    let x := Number.widen x
    let y := Number.widen y
    Number.narrow (Float.sqrt (x * x + y * y))

instance : Scalar Float32 where
  decLt := inferInstance
  decLe := inferInstance
  abs := Float32.abs
  tau := 6.2831855
  largest := 3.4028235e38
  sqrt := Float32.sqrt
  sin x := (Float.sin x.toFloat).toFloat32
  cos x := (Float.cos x.toFloat).toFloat32
  atan2 y x := (Float.atan2 y.toFloat x.toFloat).toFloat32
  hypot := singleHypot
  isFinite := Float32.isFinite
  ofCount n := Number.singleOfInt n
  ofProgrammed := Number.narrow
  Wide := Float
  wide := inferInstance
  widen := Number.widen

end Toolpath
