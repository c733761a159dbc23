import Toolpath.Proofs.CountTheorems
import Toolpath.Proofs.IsotoneTheorems

/-!
# Single precision keeps the order

Single-precision arithmetic obeys the rules of `Scalar.Isotone`. Two numbers in order are both
finite, unless an infinity stands at its end of the order (`Single.cases_of_le`). Finite operands
have results that are rounded once, and rounding keeps the order (`Single.IsRounding.mono`); an
infinite one has an infinite result, at the same end, where it has one that is a number.
-/

namespace Toolpath

namespace Single

open Float.Model (UnpackedFloat)
open Float.Model.UnpackedFloat (Sign)

variable {a x y : Float32} {u v : UnpackedFloat} {s : Sign}

/-! ## The ends of the order -/

/-- No number is below the negative infinity. -/
theorem le_of_negative_infinity (hx : parts x = .infinity .negative) (hy : Scalar.IsNumber y) :
    x ≤ y := by
  rw [← Single.neg_le_neg_iff]
  have hneg : parts (-x) = .infinity .positive := by
    rw [parts_neg, hx]
    rfl
  apply le_of_infinity hneg
  rw [isNumber_iff, parts_neg, ne_eq, neg_eq_notANumber_iff]
  exact isNumber_iff.1 hy

/-- Of two numbers in order only the ends of the order are not finite. -/
theorem cases_of_le (h : x ≤ y) : parts x = .infinity .negative ∨ parts y = .infinity .positive ∨
    x.isFinite = true ∧ y.isFinite = true := by
  obtain ⟨hx, hy, hrank⟩ := (le_iff x y).1 h
  show _ ∨ _ ∨ (parts x).isFinite = true ∧ (parts y).isFinite = true
  generalize parts x = u at hx hrank ⊢
  generalize parts y = v at hy hrank ⊢
  rcases u with s | _ | s | ⟨s, m, e, hm⟩ <;> rcases v with t | _ | t | ⟨t, m', e', hm'⟩ <;>
    (try cases s) <;> (try cases t) <;>
    first
      | contradiction
      | exact .inl rfl
      | exact .inr (.inl rfl)
      | exact .inr (.inr ⟨rfl, rfl⟩)

/-- Numbers with the same parts are in order. -/
theorem le_of_parts_eq (hx : Scalar.IsNumber x) (h : parts x = parts y) : x ≤ y := by
  rw [le_iff, ← h]
  exact ⟨isNumber_iff.1 hx, isNumber_iff.1 hx, le_rfl⟩

/-- An operation keeps the order if it does so on finite numbers and keeps the infinities, wherever
it gives a number. -/
theorem map_le_map {f : Float32 → Float32} (h : x ≤ y) (hx : Scalar.IsNumber (f x))
    (hy : Scalar.IsNumber (f y))
    (hinfinite : ∀ {z s}, parts z = .infinity s → Scalar.IsNumber (f z) →
      parts (f z) = .infinity s)
    (hfinite : x.isFinite = true → y.isFinite = true → f x ≤ f y) : f x ≤ f y := by
  rcases cases_of_le h with hbottom | htop | ⟨hx', hy'⟩
  · exact le_of_negative_infinity (hinfinite hbottom hx) hy
  · exact le_of_infinity (hinfinite htop hy) hx
  · exact hfinite hx' hy'

/-! ## Values -/

theorem isFinite_one : (1.0 : Float32).isFinite = true := by decide +kernel

theorem value_one : value (parts (1.0 : Float32)) = 1 := by
  have hparts : parts (1.0 : Float32) = .finite .positive (2 ^ 23) (-23) (by decide) := by rfl
  rw [hparts, value_finite]
  norm_num [Sign.apply]

theorem zero_le_value (hx : x.isFinite = true) (h : 0.0 ≤ x) : 0 ≤ value (parts x) :=
  (le_iff_value (x := 0.0) rfl hx).1 h

theorem zero_lt_value (hx : x.isFinite = true) (h : 0.0 < x) : 0 < value (parts x) := by
  by_contra hvalue
  exact Scalar.num_not_le_of_lt h ((le_iff_value (y := 0.0) hx rfl).2 (not_lt.1 hvalue))

/-! ## Infinite operands -/

/-- What is a number but not finite is an infinity. -/
theorem exists_infinity (hu : u ≠ .notANumber) (hu' : ¬ u.isFinite = true) :
    ∃ s, u = .infinity s := by
  rcases u with s | _ | s | ⟨s, m, e, hm⟩ <;>
    first
      | exact ⟨s, rfl⟩
      | contradiction

/-- An infinite summand has an infinite sum, if any. -/
theorem add_infinity (h : u.add .binary32 (.infinity s) ≠ .notANumber) :
    u.add .binary32 (.infinity s) = .infinity s := by
  rcases u with t | _ | t | ⟨t, m, e, hm⟩ <;> cases s <;> (try cases t) <;>
    first
      | rfl
      | exact absurd rfl h

/-- An infinite factor has an infinite product, if any. -/
theorem mul_infinity (hu : ¬ IsBelow u) (hu' : u.isFinite = true)
    (h : u.mul .binary32 (.infinity s) ≠ .notANumber) :
    u.mul .binary32 (.infinity s) = .infinity s := by
  rcases u with t | _ | t | ⟨t, m, e, hm⟩ <;> cases s <;> (try cases t) <;>
    first
      | rfl
      | contradiction
      | exact absurd rfl h
      | exact absurd trivial hu

/-- An infinite dividend has an infinite quotient, if any. -/
theorem infinity_div (hv : IsAbove v)
    (h : (UnpackedFloat.infinity s).div .binary32 v ≠ .notANumber) :
    (UnpackedFloat.infinity s).div .binary32 v = .infinity s := by
  rcases v with t | _ | t | ⟨t, m, e, hm⟩ <;> cases s <;> (try cases t) <;>
    first
      | rfl
      | contradiction

/-- An infinity is packed as it is. -/
theorem parts_infinity (h : u = .infinity s) : parts (ofParts u) = .infinity s := by
  rw [h]
  exact parts_ofParts_of_not_isFinite nofun

/-- A sum with an infinity is that infinity, if it is a number. -/
theorem parts_add_infinity (hx : parts x = .infinity s) (h : Scalar.IsNumber (a + x)) :
    parts (a + x) = .infinity s := by
  have hne : (parts a).add .binary32 (parts x) ≠ .notANumber := ne_of_ofParts (isNumber_iff.1 h)
  have hsum : (parts a).add .binary32 (parts x) = .infinity s := by
    rw [hx] at hne ⊢
    exact add_infinity hne
  exact parts_infinity hsum

/-- A product with an infinity is that infinity, if it is a number and the other factor is finite
and not below zero. -/
theorem parts_mul_infinity (ha : 0.0 ≤ a) (ha' : a.isFinite = true) (hx : parts x = .infinity s)
    (h : Scalar.IsNumber (a * x)) : parts (a * x) = .infinity s := by
  have hne : (parts a).mul .binary32 (parts x) ≠ .notANumber := ne_of_ofParts (isNumber_iff.1 h)
  have hproduct : (parts a).mul .binary32 (parts x) = .infinity s := by
    rw [hx] at hne ⊢
    exact mul_infinity ((zero_le_iff a).1 ha).2 ha' hne
  exact parts_infinity hproduct

/-- A quotient of an infinity is that infinity, if it is a number and the divisor is above zero. -/
theorem parts_infinity_div (ha : 0.0 < a) (hx : parts x = .infinity s)
    (h : Scalar.IsNumber (x / a)) : parts (x / a) = .infinity s := by
  have hne : (parts x).div .binary32 (parts a) ≠ .notANumber := ne_of_ofParts (isNumber_iff.1 h)
  have hquotient : (parts x).div .binary32 (parts a) = .infinity s := by
    rw [hx] at hne ⊢
    exact infinity_div ((zero_lt_iff a).1 ha) hne
  exact parts_infinity hquotient

/-! ## Sums and differences -/

/-- Sums of parts may be swapped. -/
theorem add_comm_parts (u v : UnpackedFloat) : u.add .binary32 v = v.add .binary32 u := by
  rcases u with s | _ | s | ⟨s, m, e, hm⟩ <;> rcases v with t | _ | t | ⟨t, m', e', hm'⟩
  case finite.finite =>
    dsimp only [UnpackedFloat.add]
    rw [min_comm e, add_comm (s.apply _)]
  all_goals (try cases s) <;> (try cases t) <;> rfl

protected theorem add_comm (x y : Float32) : x + y = y + x :=
  congrArg ofParts (add_comm_parts (parts x) (parts y))

/-- Only infinities of opposite signs have no sum. -/
theorem exists_sign_add_of_isFinite (hu : u ≠ .notANumber) (hv : v.isFinite = true) :
    ∃ s, HasSign s (u.add .binary32 v) := by
  rcases u with s | _ | s | ⟨s, m, e, hm⟩ <;> rcases v with t | _ | t | ⟨t, m', e', hm'⟩ <;>
    (try cases s) <;> (try cases t) <;>
    first
      | contradiction
      | exact ⟨_, rfl⟩
      | exact exists_sign_normalize _ _

theorem isNumber_add_right (hx : Scalar.IsNumber x) (hy : y.isFinite = true) :
    Scalar.IsNumber (x + y) :=
  isNumber_ofParts (exists_sign_add_of_isFinite (isNumber_iff.1 hx) hy)

/-- Adding on the left keeps the order. -/
theorem add_le_add_left (hxy : x ≤ y) (hx : Scalar.IsNumber (a + x))
    (hy : Scalar.IsNumber (a + y)) : a + x ≤ a + y := by
  apply map_le_map hxy hx hy parts_add_infinity
  intro hx' hy'
  by_cases ha : a.isFinite = true
  · exact (isRounding_add ha hx').mono (isRounding_add ha hy')
      (add_le_add_right ((le_iff_value hx' hy').1 hxy) _)
  · -- an infinity swallows both
    obtain ⟨s, hs⟩ := exists_infinity (isNumber_iff.1 (isNumber_of_add hx).1) ha
    rw [Single.add_comm a] at hx hy ⊢
    rw [Single.add_comm a]
    apply le_of_parts_eq hx
    rw [parts_add_infinity hs hx, parts_add_infinity hs hy]

/-- The more is taken away, the less is left. -/
theorem sub_le_sub_left (hxy : x ≤ y) (hx : Scalar.IsNumber (a - x))
    (hy : Scalar.IsNumber (a - y)) : a - y ≤ a - x := by
  rw [Single.sub_eq_add_neg] at hx hy ⊢
  rw [Single.sub_eq_add_neg]
  exact add_le_add_left ((Single.neg_le_neg_iff y x).2 hxy) hy hx

/-- The more there is, the more is left. -/
theorem sub_le_sub_right (hxy : x ≤ y) (hx : Scalar.IsNumber (x - a))
    (hy : Scalar.IsNumber (y - a)) : x - a ≤ y - a := by
  rw [Single.sub_eq_add_neg, Single.add_comm] at hx hy ⊢
  rw [Single.sub_eq_add_neg, Single.add_comm y]
  exact add_le_add_left hxy hx hy

theorem le_add_zero (hx : Scalar.IsNumber x) : x ≤ x + 0.0 := by
  by_cases hx' : x.isFinite = true
  · apply (isRounding_add hx' rfl).ge hx'
    exact (add_zero (value (parts x))).ge
  · obtain ⟨s, hs⟩ := exists_infinity (isNumber_iff.1 hx) hx'
    have hsum := isNumber_add_right hx (y := 0.0) rfl
    apply le_of_parts_eq hx
    rw [Single.add_comm] at hsum ⊢
    rw [hs, parts_add_infinity hs hsum]

/-- Of two numbers that are not below zero the greater, less the lesser, is finite if it is. -/
theorem isFinite_sub_of_le (hy : 0.0 ≤ y) (hyx : y ≤ x) (hx : x.isFinite = true) :
    (x - y).isFinite = true := by
  have hy' : y.isFinite = true := Scalar.Rounding.isFinite_of_le y x hy hyx hx
  have hdifference := isRounding_sub hx hy'
  have hlo : 0.0 ≤ x - y := hdifference.ge rfl (sub_nonneg.2 ((le_iff_value hy' hx).1 hyx))
  have hhi : x - y ≤ x := hdifference.le hx (sub_le_self _ (zero_le_value hy' hy))
  exact Scalar.Rounding.isFinite_of_le (x - y) x hlo hhi hx

/-! ## Products, quotients and roots -/

/-- A factor that is not below zero keeps the order. -/
theorem mul_le_mul_left (ha : 0.0 ≤ a) (ha' : a.isFinite = true) (hxy : x ≤ y)
    (hx : Scalar.IsNumber (a * x)) (hy : Scalar.IsNumber (a * y)) : a * x ≤ a * y := by
  apply map_le_map hxy hx hy (parts_mul_infinity ha ha')
  intro hx' hy'
  apply (isRounding_mul ha' hx').mono (isRounding_mul ha' hy')
  exact mul_le_mul_of_nonneg_left ((le_iff_value hx' hy').1 hxy) (zero_le_value ha' ha)

/-- A quotient by an infinity is a zero, if it is a number. -/
theorem parts_div_infinity (ha : parts a = .infinity s) (hx : Scalar.IsNumber (x / a)) :
    ∃ t, parts (x / a) = .zero t := by
  have hne : (parts x).div .binary32 (parts a) ≠ .notANumber := ne_of_ofParts (isNumber_iff.1 hx)
  show ∃ t, parts (ofParts ((parts x).div .binary32 (parts a))) = .zero t
  rw [ha] at hne ⊢
  obtain hnan | ⟨t, ht⟩ := div_infinity (parts x) s
  · exact absurd hnan hne
  · rw [ht]
    exact ⟨t, by cases t <;> rfl⟩

/-- A divisor above zero keeps the order. -/
theorem div_le_div_right (ha : 0.0 < a) (hxy : x ≤ y) (hx : Scalar.IsNumber (x / a))
    (hy : Scalar.IsNumber (y / a)) : x / a ≤ y / a := by
  by_cases ha' : a.isFinite = true
  · have hpos := zero_lt_value ha' ha
    refine map_le_map (f := (· / a)) hxy hx hy (parts_infinity_div ha) fun hx' hy' => ?_
    apply (isRounding_div hx' ha' hpos).mono (isRounding_div hy' ha' hpos)
    exact div_le_div_of_nonneg_right ((le_iff_value hx' hy').1 hxy) hpos.le
  · -- both quotients are zeros
    obtain ⟨s, hs⟩ :=
      exists_infinity (isNumber_iff.1 (Scalar.number_right (Scalar.num_le_of_lt ha))) ha'
    obtain ⟨t, ht⟩ := parts_div_infinity hs hx
    obtain ⟨t', ht'⟩ := parts_div_infinity hs hy
    rw [le_iff, ht, ht']
    exact ⟨nofun, nofun, le_rfl⟩

/-- The root keeps the order. -/
theorem sqrt_le_sqrt (hx : 0.0 ≤ x) (hxy : x ≤ y) :
    (Scalar.sqrt x : Float32) ≤ Scalar.sqrt y := by
  have hy : 0.0 ≤ y := Scalar.num_le_trans hx hxy
  apply map_le_map hxy (Scalar.Rounding.isNumber_sqrt x hx) (Scalar.Rounding.isNumber_sqrt y hy)
  · intro z s hz hnumber
    have hne : (parts z).sqrt .binary32 ≠ .notANumber := ne_of_ofParts (isNumber_iff.1 hnumber)
    have hroot : (parts z).sqrt .binary32 = .infinity s := by
      rw [hz] at hne ⊢
      cases s with
      | negative => exact absurd rfl hne
      | positive => rfl
    exact parts_infinity hroot
  · intro hx' hy'
    apply (isRounding_sqrt hx' (zero_le_value hx' hx)).mono
      (isRounding_sqrt hy' (zero_le_value hy' hy))
    exact Real.sqrt_le_sqrt ((le_iff_value hx' hy').1 hxy)

/-- A share of a finite length is finite. -/
theorem isFinite_mul_of_le (hx : 0.0 ≤ x) (hx' : x.isFinite = true) (hy : 0.0 ≤ y) (hy' : y ≤ 1.0) :
    (x * y).isFinite = true := by
  have hfinite : y.isFinite = true := Scalar.Rounding.isFinite_of_le y 1.0 hy hy' isFinite_one
  have hproduct := isRounding_mul hx' hfinite
  have hshare : value (parts y) ≤ 1 := by
    rw [← value_one]
    exact (le_iff_value hfinite isFinite_one).1 hy'
  have hlength := zero_le_value hx' hx
  have hlo : 0.0 ≤ x * y := hproduct.ge rfl (mul_nonneg hlength (zero_le_value hfinite hy))
  have hhi : x * y ≤ x := hproduct.le hx' (mul_le_of_le_one_right hlength hshare)
  exact Scalar.Rounding.isFinite_of_le (x * y) x hlo hhi hx'

/-! ## The rules -/

instance : Scalar.Isotone Float32 where
  zero_le_one := by decide +kernel
  zero_lt_two := by decide +kernel
  isFinite_two := by decide +kernel
  le_add_zero _ := le_add_zero
  add_le_add_left _ _ _ := Single.add_le_add_left
  sub_le_sub_left _ _ _ := sub_le_sub_left
  sub_le_sub_right _ _ _ := sub_le_sub_right
  mul_le_mul_left _ _ _ := mul_le_mul_left
  div_le_div_right _ _ _ := div_le_div_right
  sqrt_le_sqrt _ _ := sqrt_le_sqrt
  ofCount_le_ofCount _ _ := ofCount_le_ofCount
  zero_lt_ofCount _ := zero_lt_ofCount
  isNumber_of_add _ _ := isNumber_of_add
  isNumber_of_mul x y h := by
    obtain ⟨hx, hy⟩ := ne_of_mul (ne_of_ofParts (isNumber_iff.1 h))
    exact ⟨isNumber_iff.2 hx, isNumber_iff.2 hy⟩
  isNumber_of_sqrt x h := by
    rw [isNumber_iff]
    intro hx
    apply ne_of_ofParts (isNumber_iff.1 h)
    show (parts x).sqrt .binary32 = _
    rw [hx]
    rfl
  isNumber_divisor x y h := by
    rw [isNumber_iff]
    intro hy
    apply ne_of_ofParts (isNumber_iff.1 h)
    show (parts x).div .binary32 (parts y) = _
    rw [hy]
    cases parts x <;> rfl
  isNumber_add_right _ _ := isNumber_add_right
  isFinite_sub_of_le _ _ := isFinite_sub_of_le
  isFinite_mul_of_le _ _ := isFinite_mul_of_le

end Single

end Toolpath
