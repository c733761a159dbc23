import Mathlib.Order.Defs.LinearOrder
import Toolpath.Scalar.Real
import Toolpath.Planning

/-!
# The order of scalars

Machine values need not be comparable, but those that are no number are comparable with nothing,
not even with themselves. `NumberOrder` states that this is the only exception: values with
`x ≤ x`, the numbers, are ordered as one expects. The reals are numbers throughout.

On top of it stand the facts about the clamp: it leads into its bounds (`clamp_le`, `le_clamp`)
and leaves alone what lies between them (`clamp_of_mem`), and a value that is no number passes
through it.
-/

namespace Toolpath

namespace Scalar

/-- A value that is comparable at all. -/
def IsNumber {α : Type} [LE α] (x : α) : Prop := x ≤ x

instance {α : Type} [Arithmetic α] (x : α) : Decidable (IsNumber x) :=
  inferInstanceAs (Decidable (x ≤ x))

/-- Comparisons in which only values that are no number fall out of the order. -/
class NumberOrder (α : Type) [Arithmetic α] : Prop where
  lt_iff : ∀ a b : α, a < b ↔ a ≤ b ∧ ¬ b ≤ a
  le_trans : ∀ a b c : α, a ≤ b → b ≤ c → a ≤ c
  le_total : ∀ a b : α, IsNumber a → IsNumber b → a ≤ b ∨ b ≤ a
  isNumber_left : ∀ a b : α, a ≤ b → IsNumber a
  isNumber_right : ∀ a b : α, a ≤ b → IsNumber b

instance : NumberOrder ℝ where
  lt_iff _ _ := lt_iff_le_not_ge
  le_trans _ _ _ := le_trans
  le_total a b _ _ := le_total a b
  isNumber_left a _ _ := le_refl a
  isNumber_right _ b _ := le_refl b

variable {α : Type} [Arithmetic α] [NumberOrder α] {a b c x lo hi : α}

theorem number_left (h : a ≤ b) : IsNumber a := NumberOrder.isNumber_left a b h

theorem number_right (h : a ≤ b) : IsNumber b := NumberOrder.isNumber_right a b h

/-- Less or equal is transitive, since it holds between numbers only. -/
theorem num_le_trans (h : a ≤ b) (h' : b ≤ c) : a ≤ c := NumberOrder.le_trans a b c h h'

theorem num_le_of_lt (h : a < b) : a ≤ b := ((NumberOrder.lt_iff a b).1 h).1

theorem num_not_le_of_lt (h : a < b) : ¬ b ≤ a := ((NumberOrder.lt_iff a b).1 h).2

/-- Less or equal and less make less. -/
theorem num_lt_of_le_of_lt (h : a ≤ b) (h' : b < c) : a < c := by
  rw [NumberOrder.lt_iff]
  refine ⟨num_le_trans h (num_le_of_lt h'), ?_⟩
  intro hca
  exact num_not_le_of_lt h' (num_le_trans hca h)

/-- Less and less or equal make less. -/
theorem num_lt_of_lt_of_le (h : a < b) (h' : b ≤ c) : a < c := by
  rw [NumberOrder.lt_iff]
  refine ⟨num_le_trans (num_le_of_lt h) h', ?_⟩
  intro hca
  exact num_not_le_of_lt h (num_le_trans h' hca)

/-- Of two numbers the one that is not less is at least the other. -/
theorem num_le_of_not_lt (ha : IsNumber a) (hb : IsNumber b) (h : ¬ a < b) : b ≤ a := by
  rcases NumberOrder.le_total a b ha hb with hab | hba
  · by_contra hba
    exact h ((NumberOrder.lt_iff a b).2 ⟨hab, hba⟩)
  · exact hba

/-- Of two numbers the one that is not at most the other is greater. -/
theorem num_lt_of_not_le (ha : IsNumber a) (hb : IsNumber b) (h : ¬ a ≤ b) : b < a := by
  rcases NumberOrder.le_total a b ha hb with hab | hba
  · exact absurd hab h
  · exact (NumberOrder.lt_iff b a).2 ⟨hba, h⟩

/-! ## Clamping -/

/-- What is clamped is not above the upper bound. -/
theorem clamp_le (hx : IsNumber x) (h : lo ≤ hi) : clamp x lo hi ≤ hi := by
  unfold clamp
  split_ifs with hlo hhi
  · exact h
  · exact number_right h
  · exact num_le_of_not_lt (number_right h) hx hhi

/-- What is clamped is not below the lower bound. -/
theorem le_clamp (hx : IsNumber x) (h : lo ≤ hi) : lo ≤ clamp x lo hi := by
  unfold clamp
  split_ifs with hlo hhi
  · exact number_left h
  · exact h
  · exact num_le_of_not_lt hx (number_left h) hlo

/-- What lies between the bounds is left as it is. -/
theorem clamp_of_mem (hlo : lo ≤ x) (hhi : x ≤ hi) : clamp x lo hi = x := by
  unfold clamp
  rw [if_neg fun h => num_not_le_of_lt h hlo, if_neg fun h => num_not_le_of_lt h hhi]

/-- What is at least the upper bound is moved to at least the upper bound. -/
theorem le_clamp_of_le (h : lo ≤ hi) (hx : hi ≤ x) : hi ≤ clamp x lo hi := by
  unfold clamp
  rw [if_neg fun hlt => num_not_le_of_lt hlt (num_le_trans h hx)]
  split_ifs
  · exact number_right h
  · exact hx

/-- The clamp keeps the order. -/
theorem clamp_mono (h : lo ≤ hi) {y : α} (hxy : x ≤ y) : clamp x lo hi ≤ clamp y lo hi := by
  have hx := number_left hxy
  have hy := number_right hxy
  by_cases hlo : x < lo
  · rw [show clamp x lo hi = lo from if_pos hlo]
    exact le_clamp hy h
  have hbelow : lo ≤ x := num_le_of_not_lt hx (number_left h) hlo
  by_cases hhi : hi < y
  · exact num_le_trans (clamp_le hx h) (le_clamp_of_le h (num_le_of_lt hhi))
  have habove : y ≤ hi := num_le_of_not_lt (number_right h) hy hhi
  rwa [clamp_of_mem hbelow (num_le_trans hxy habove), clamp_of_mem (num_le_trans hbelow hxy) habove]

/-- What is no number passes through the clamp. -/
theorem clamp_of_not_number (hx : ¬ IsNumber x) : clamp x lo hi = x := by
  unfold clamp
  rw [if_neg fun h => hx (number_left (num_le_of_lt h)),
    if_neg fun h => hx (number_right (num_le_of_lt h))]

end Scalar

open Scalar

variable {α : Type} [Arithmetic α]

theorem clampBetween_of_le {x lo hi : α} (h : lo ≤ hi) :
    clampBetween x lo hi = .ok (clamp x lo hi) := if_pos h

/-- Bounds in the wrong order, or of which one is no number, are an error. -/
theorem clampBetween_of_not_le {x lo hi : α} (h : ¬ lo ≤ hi) :
    clampBetween x lo hi = .error .unordered := if_neg h

/-- The clamp gives a result exactly where its bounds are in order. -/
theorem clampBetween_eq_ok {x lo hi y : α} :
    clampBetween x lo hi = .ok y ↔ lo ≤ hi ∧ clamp x lo hi = y := by
  by_cases h : lo ≤ hi
  · simp [clampBetween_of_le h, h]
  · simp [clampBetween_of_not_le h, h]

end Toolpath
