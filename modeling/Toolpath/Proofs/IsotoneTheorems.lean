import Toolpath.Proofs.AbsorptionTheorems

/-!
# Arithmetic that keeps the order

Rounding moves results, but it does not swap them: of two results the one that is exactly greater
stays at least as great. `Scalar.Isotone` states this of the operations that times are computed
with. Only results that are numbers are compared, and an operand that is no number shows in the
result.

The reals obey the rules without rounding. A sum of what is not below zero grows with every term
(`le_foldl_add`), in any arithmetic that obeys them.
-/

namespace Toolpath

namespace Scalar

/-- Arithmetic whose operations keep the order, wherever their results are numbers. -/
class Isotone (α : Type) [Scalar α] : Prop extends Absorbing α where
  zero_le_one : (0.0 : α) ≤ 1.0
  zero_lt_two : (0.0 : α) < 2.0
  isFinite_two : isFinite (2.0 : α)
  le_add_zero : ∀ x : α, IsNumber x → x ≤ x + 0.0
  add_le_add_left : ∀ a x y : α, x ≤ y → IsNumber (a + x) → IsNumber (a + y) → a + x ≤ a + y
  sub_le_sub_left : ∀ a x y : α, x ≤ y → IsNumber (a - x) → IsNumber (a - y) → a - y ≤ a - x
  sub_le_sub_right : ∀ a x y : α, x ≤ y → IsNumber (x - a) → IsNumber (y - a) → x - a ≤ y - a
  mul_le_mul_left : ∀ a x y : α, 0.0 ≤ a → isFinite a → x ≤ y → IsNumber (a * x) →
    IsNumber (a * y) → a * x ≤ a * y
  div_le_div_right : ∀ a x y : α, 0.0 < a → x ≤ y → IsNumber (x / a) → IsNumber (y / a) →
    x / a ≤ y / a
  sqrt_le_sqrt : ∀ x y : α, 0.0 ≤ x → x ≤ y → sqrt x ≤ sqrt y
  ofCount_le_ofCount : ∀ m n : Nat, m ≤ n → (ofCount m : α) ≤ ofCount n
  zero_lt_ofCount : ∀ n : Nat, 0 < n → (0.0 : α) < ofCount n
  isNumber_of_add : ∀ x y : α, IsNumber (x + y) → IsNumber x ∧ IsNumber y
  isNumber_of_mul : ∀ x y : α, IsNumber (x * y) → IsNumber x ∧ IsNumber y
  isNumber_of_sqrt : ∀ x : α, IsNumber (sqrt x) → IsNumber x
  isNumber_divisor : ∀ x y : α, IsNumber (x / y) → IsNumber y
  isNumber_add_right : ∀ x y : α, IsNumber x → isFinite y → IsNumber (x + y)
  isFinite_sub_of_le : ∀ x y : α, 0.0 ≤ y → y ≤ x → isFinite x → isFinite (x - y)
  isFinite_mul_of_le : ∀ x y : α, 0.0 ≤ x → isFinite x → 0.0 ≤ y → y ≤ 1.0 → isFinite (x * y)

/-- Arithmetic that does not round at all. -/
instance : Isotone ℝ where
  zero_le_one := by norm_num
  zero_lt_two := by norm_num
  isFinite_two := rfl
  le_add_zero x _ := by norm_num
  add_le_add_left a _ _ h _ _ := by gcongr
  sub_le_sub_left a _ _ h _ _ := by gcongr
  sub_le_sub_right a _ _ h _ _ := by gcongr
  mul_le_mul_left a _ _ ha _ h _ _ := by
    norm_num at ha
    gcongr
  div_le_div_right a _ _ ha h _ _ := by
    norm_num at ha
    gcongr
  sqrt_le_sqrt _ _ _ h := Real.sqrt_le_sqrt h
  ofCount_le_ofCount m n h := Nat.cast_le.2 h
  zero_lt_ofCount n h := by
    norm_num
    exact Nat.cast_pos.2 h
  isNumber_of_add x y _ := ⟨le_refl x, le_refl y⟩
  isNumber_of_mul x y _ := ⟨le_refl x, le_refl y⟩
  isNumber_of_sqrt x _ := le_refl x
  isNumber_divisor _ y _ := le_refl y
  isNumber_add_right x y _ _ := le_refl (x + y)
  isFinite_sub_of_le _ _ _ _ _ := rfl
  isFinite_mul_of_le _ _ _ _ _ _ := rfl

variable {α : Type} [Scalar α] [Isotone α] {x y : α}

/-! ## Sums of what is not below zero -/

theorem zero_le_add (hx : 0.0 ≤ x) (hy : 0.0 ≤ y) : 0.0 ≤ x + y :=
  (Rounding.nonneg_add x y (nonneg_of_le hx) (nonneg_of_le hy)).zero_le
    (Rounding.isNumber_add x y hx hy)

/-- What is not below zero takes nothing away. -/
theorem le_add_of_zero_le (hx : 0.0 ≤ x) (hy : 0.0 ≤ y) : x ≤ x + y :=
  num_le_trans (Isotone.le_add_zero x (number_right hx))
    (Isotone.add_le_add_left x _ _ hy (Rounding.isNumber_add _ _ hx isNumber_zero)
      (Rounding.isNumber_add _ _ hx hy))

/-- A sum is at least what it starts from. -/
theorem le_foldl_add {ι : Type} {f : ι → α} {is : List ι} (hf : ∀ i ∈ is, 0.0 ≤ f i)
    (hx : 0.0 ≤ x) : x ≤ is.foldl (fun t i => t + f i) x := by
  induction is generalizing x with
  | nil => exact number_right hx
  | cons i rest ih =>
    have hi := hf i List.mem_cons_self
    exact num_le_trans (le_add_of_zero_le hx hi)
      (ih (fun j hj => hf j (List.mem_cons_of_mem i hj)) (zero_le_add hx hi))

omit [Isotone α] in
/-- The terms of a finite sum are finite. -/
theorem isFinite_of_foldl_add [Absorbing α] {ι : Type} {f : ι → α} {is : List ι}
    (h : isFinite (is.foldl (fun t i => t + f i) x) = true) :
    isFinite x = true ∧ ∀ i ∈ is, isFinite (f i) = true := by
  induction is generalizing x with
  | nil => exact ⟨h, fun i hi => absurd hi List.not_mem_nil⟩
  | cons i rest ih =>
    obtain ⟨hfirst, hrest⟩ := ih h
    obtain ⟨hx, hi⟩ := Absorbing.isFinite_of_add x (f i) hfirst
    exact ⟨hx, List.forall_mem_cons.2 ⟨hi, hrest⟩⟩

end Scalar

end Toolpath
