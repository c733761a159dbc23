import Toolpath.Proofs.OrderTheorems

/-!
# Arithmetic that rounds

Machine arithmetic leaves the numbers where a result is undefined, such as the difference of two
infinities, and the finite numbers where a result is too large. `Scalar.Rounding` states what the
planner can rely on all the same:

* signs: no operation on values that are not below zero leads below zero, whatever is rounded and
  whatever is undefined;
* numbers: which operations on numbers give numbers, and which finite arguments they need.

`Scalar.Gradual` adds that subtraction underflows gradually. A value is not below zero,
`Scalar.Nonneg`, also where it is no number at all.
-/

namespace Toolpath

namespace Scalar

/-- A value that is not below zero. -/
def Nonneg {α : Type} [Arithmetic α] (x : α) : Prop := ¬ x < 0.0

/-- Arithmetic that respects signs and leaves the numbers only where it has to. -/
class Rounding (α : Type) [Scalar α] : Prop extends NumberOrder α where
  zero_le_short : (0.0 : α) ≤ 0.000000001
  zero_le_share : (0.0 : α) ≤ 0.8
  zero_le_two : (0.0 : α) ≤ 2.0
  nonneg_add : ∀ x y : α, Nonneg x → Nonneg y → Nonneg (x + y)
  nonneg_mul : ∀ x y : α, Nonneg x → Nonneg y → Nonneg (x * y)
  nonneg_mul_self : ∀ x : α, Nonneg (x * x)
  nonneg_div : ∀ x y : α, Nonneg x → ¬ y ≤ 0.0 → Nonneg (x / y)
  nonneg_neg : ∀ x : α, x < 0.0 → Nonneg (-x)
  nonneg_abs : ∀ x : α, Nonneg (abs x)
  nonneg_sqrt : ∀ x : α, Nonneg (sqrt x)
  nonneg_hypot : ∀ x y : α, Nonneg (hypot x y)
  zero_le_sub : ∀ x y : α, x < y → 0.0 ≤ y - x
  zero_lt_double : ∀ x : α, 0.0 < x → 0.0 < 2.0 * x
  isNumber_add : ∀ x y : α, 0.0 ≤ x → 0.0 ≤ y → IsNumber (x + y)
  isNumber_sub : ∀ x y : α, isFinite x → IsNumber y → IsNumber (x - y)
  isNumber_mul : ∀ x y : α, 0.0 < x → isFinite x → IsNumber y → IsNumber (x * y)
  isNumber_mul_self : ∀ x : α, IsNumber x → IsNumber (x * x)
  isNumber_div : ∀ x y : α, IsNumber x → 0.0 < y → isFinite y → IsNumber (x / y)
  isNumber_abs : ∀ x : α, IsNumber x → IsNumber (abs x)
  isNumber_sqrt : ∀ x : α, 0.0 ≤ x → IsNumber (sqrt x)
  isNumber_of_isFinite : ∀ x : α, isFinite x → IsNumber x
  isFinite_of_le : ∀ x y : α, 0.0 ≤ x → x ≤ y → isFinite y → isFinite x
  isFinite_sqrt : ∀ x : α, 0.0 ≤ x → isFinite x → isFinite (sqrt x)
  isFinite_of_double : ∀ x : α, isFinite (2.0 * x) → isFinite x

/-- Arithmetic that does not round at all. -/
instance : Rounding ℝ where
  zero_le_short := by norm_num
  zero_le_share := by norm_num
  zero_le_two := by norm_num
  nonneg_add x y hx hy := by
    unfold Nonneg at *
    norm_num at *
    exact add_nonneg hx hy
  nonneg_mul x y hx hy := by
    unfold Nonneg at *
    norm_num at *
    exact mul_nonneg hx hy
  nonneg_mul_self x := by
    unfold Nonneg
    norm_num
    exact mul_self_nonneg x
  nonneg_div x y hx hy := by
    unfold Nonneg at *
    norm_num at *
    exact div_nonneg hx hy.le
  nonneg_neg x hx := by
    unfold Nonneg
    norm_num at *
    exact hx.le
  nonneg_abs x := by
    unfold Nonneg
    norm_num
    exact abs_nonneg x
  nonneg_sqrt x := by
    unfold Nonneg
    norm_num
    exact Real.sqrt_nonneg x
  nonneg_hypot x y := by
    unfold Nonneg
    norm_num
    exact Real.sqrt_nonneg _
  zero_le_sub x y hxy := by
    norm_num
    exact hxy.le
  zero_lt_double x hx := by
    norm_num at *
    exact hx
  isNumber_add x y _ _ := le_refl (x + y)
  isNumber_sub x y _ _ := le_refl (x - y)
  isNumber_mul x y _ _ _ := le_refl (x * y)
  isNumber_mul_self x _ := le_refl (x * x)
  isNumber_div x y _ _ _ := le_refl (x / y)
  isNumber_abs x _ := le_refl (abs x)
  isNumber_sqrt x _ := le_refl (sqrt x)
  isNumber_of_isFinite x _ := le_refl x
  isFinite_of_le _ _ _ _ _ := rfl
  isFinite_sqrt _ _ _ := rfl
  isFinite_of_double _ _ := rfl

/-- Arithmetic in which no difference of two different numbers is rounded to zero. -/
class Gradual (α : Type) [Scalar α] : Prop extends Rounding α where
  zero_lt_sub : ∀ x y : α, x < y → 0.0 < y - x

instance : Gradual ℝ where
  zero_lt_sub x y hxy := by
    norm_num
    exact hxy

variable {α : Type} [Scalar α] [Rounding α] {x y : α}

theorem isNumber_zero : IsNumber (0.0 : α) := number_left Rounding.zero_le_two

/-- What zero is not above is not below zero. -/
theorem nonneg_of_le (h : 0.0 ≤ x) : Nonneg x := fun hlt => num_not_le_of_lt hlt h

/-- A number that is not below zero is at least zero. -/
theorem Nonneg.zero_le (h : Nonneg x) (hx : IsNumber x) : 0.0 ≤ x :=
  num_le_of_not_lt hx isNumber_zero h

omit [Rounding α] in
/-- The least of two that are not below zero is not. -/
theorem Nonneg.least (hx : Nonneg x) (hy : Nonneg y) : Nonneg (least x y) := by
  unfold Scalar.least
  split_ifs
  · exact hy
  · exact hx
  · exact hy

/-- What is raised to zero at least is not below zero, be it no number before. -/
theorem zero_le_greatest (x : α) : 0.0 ≤ greatest x 0.0 := by
  unfold greatest
  split_ifs with hlt hnum
  · exact isNumber_zero
  · exact Nonneg.zero_le hlt hnum
  · exact isNumber_zero

omit [Rounding α] in
/-- What is no number is cut to zero. -/
theorem greatest_of_not_number [NumberOrder α] (hx : ¬ IsNumber x) : greatest x 0.0 = 0.0 := by
  have hlt : ¬ x < 0.0 := fun hlt => hx (number_left (num_le_of_lt hlt))
  exact (if_neg hlt).trans (if_neg hx)

/-- The cut at zero keeps the order. -/
theorem greatest_mono (hxy : x ≤ y) : greatest x 0.0 ≤ greatest y 0.0 := by
  have hkept : ∀ {z : α}, 0.0 ≤ z → greatest z 0.0 = z := fun hz =>
    (if_neg fun hlt => num_not_le_of_lt hlt hz).trans (if_pos (number_right hz))
  by_cases hneg : x < 0.0
  · rw [show greatest x 0.0 = 0.0 from if_pos hneg]
    exact zero_le_greatest y
  · have hpos : 0.0 ≤ x := num_le_of_not_lt (number_left hxy) isNumber_zero hneg
    rwa [hkept hpos, hkept (num_le_trans hpos hxy)]

/-- The lesser of two values is at most either of them that is a number. -/
theorem least_le_left (hx : IsNumber x) : least x y ≤ x := by
  unfold least
  split_ifs with hlt hnum
  · exact num_le_of_lt hlt
  · exact hx
  · exact absurd hx hnum

/-- The least of two is not above the second. -/
theorem least_le (hy : IsNumber y) : least x y ≤ y := by
  unfold least
  split_ifs with hlt hnum
  · exact hy
  · exact num_le_of_not_lt hy hnum hlt
  · exact hy

end Scalar

end Toolpath
