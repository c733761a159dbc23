import Mathlib.Analysis.SpecialFunctions.Complex.Arg
import Mathlib.Analysis.SpecialFunctions.Pow.Real
import Toolpath.Scalar
import Toolpath.Number.Machine

/-!
# Exact scalars

The exact reals as the numbers of the planner. Every operation is the one of mathematics, so a
statement about the planner over the reals is one about its formulas. Over the reals the lesser
and the greater of two numbers are `min` and `max`.
-/

namespace Toolpath

/-- Two is a numeral. The proof has a name, so that formulas with a two are the same terms wherever
they are defined. -/
instance (priority := 1100) atLeastTwo_two : Nat.AtLeastTwo 2 := ⟨le_rfl⟩

/-- The real number that a datum stands for; zero for one that is not finite. -/
noncomputable def Number.Datum.toReal : Number.Datum → ℝ
  | .finite negative mantissa exponent =>
    (if negative then -1 else 1) * (mantissa : ℝ) * (2 : ℝ) ^ exponent
  | _ => 0

noncomputable instance : WideScalar ℝ where
  decLt := inferInstance
  decLe := inferInstance
  abs x := |x|
  pi := Real.pi
  arccos := Real.arccos
  ceilCount? x := some ⌈x⌉₊

/-- The greatest finite single-precision number stands in for the greatest real. -/
noncomputable instance : Scalar ℝ where
  decLt := inferInstance
  decLe := inferInstance
  abs x := |x|
  tau := 2 * Real.pi
  largest := (2 ^ 24 - 1) * 2 ^ 104
  sqrt := Real.sqrt
  sin := Real.sin
  cos := Real.cos
  atan2 y x := Complex.arg ⟨x, y⟩
  hypot x y := Real.sqrt (x ^ 2 + y ^ 2)
  isFinite _ := true
  ofCount n := n
  ofProgrammed x := (Number.doubleDatum x).toReal
  Wide := ℝ
  wide := inferInstance
  widen x := x

namespace Scalar

@[simp] theorem least_eq_min (a b : ℝ) : least a b = min a b := by
  unfold least
  split_ifs with h h'
  · exact (min_eq_right h.le).symm
  · exact (min_eq_left (not_lt.1 h)).symm
  · exact absurd le_rfl h'

@[simp] theorem greatest_eq_max (a b : ℝ) : greatest a b = max a b := by
  unfold greatest
  split_ifs with h h'
  · exact (max_eq_right h.le).symm
  · exact (max_eq_left (not_lt.1 h)).symm
  · exact absurd le_rfl h'

@[simp] theorem larger_eq_max (a b : ℝ) : larger a b = max a b := by
  unfold larger
  split_ifs with h
  · exact (max_eq_left h.le).symm
  · exact (max_eq_right (not_lt.1 h)).symm

end Scalar

end Toolpath
