import Toolpath.Proofs.SingleRoundingTheorems

/-!
# Arithmetic that absorbs infinities

`Scalar.Rounding` says which operands give numbers, and finite ones. `Scalar.Absorbing` says what
can be told of the operands from a result:

* no operation but a division leads from what is not finite back to the finite numbers;
* of two values that are not below zero one is finite where their difference is a number, and so
  it is where the quotient of two values is a number.

It holds of the reals, which are finite throughout, and of single-precision numbers. There each rule
is first one about the parts of the operands, and a result that is not finite is packed as it is
(`Single.parts_ofParts_of_not_isFinite`).
-/

namespace Toolpath

namespace Scalar

/-- Arithmetic in which values that are not finite show in the result. -/
class Absorbing (α : Type) [Scalar α] : Prop extends Rounding α where
  isFinite_of_add : ∀ x y : α, isFinite (x + y) → isFinite x ∧ isFinite y
  isFinite_of_sub : ∀ x y : α, isFinite (x - y) → isFinite x ∧ isFinite y
  isFinite_of_mul : ∀ x y : α, isFinite (x * y) → isFinite x ∧ isFinite y
  isFinite_of_div : ∀ x y : α, isFinite (x / y) → isFinite x
  isFinite_of_abs : ∀ x : α, isFinite (abs x) → isFinite x
  isFinite_of_sqrt : ∀ x : α, isFinite (sqrt x) → isFinite x
  isNumber_of_sub : ∀ x y : α, IsNumber (x - y) → IsNumber x ∧ IsNumber y
  isNumber_of_div : ∀ x y : α, IsNumber (x / y) → IsNumber x
  isNumber_sub_right : ∀ x y : α, IsNumber x → isFinite y → IsNumber (x - y)
  isFinite_or_of_sub : ∀ x y : α, Nonneg x → Nonneg y → IsNumber (x - y) →
    isFinite x ∨ isFinite y
  isFinite_or_of_div : ∀ x y : α, IsNumber (x / y) → isFinite x ∨ isFinite y
  isFinite_of_mul_div : ∀ x y : α, IsNumber (y * (x / y)) → isFinite y
  isFinite_of_zero_le_sub : ∀ x y : α, 0.0 ≤ x - y → Nonneg y → isFinite y
  zero_le_of_half : ∀ x : α, 0.0 ≤ x / 2.0 → ¬ isFinite x → 0.0 ≤ x
  nonneg_sub : ∀ x y : α, Nonneg x → ¬ isFinite x → Nonneg (x - y)
  le_of_not_isFinite : ∀ x y : α, 0.0 ≤ x → ¬ isFinite x → IsNumber y → y ≤ x

/-- Arithmetic without infinities. -/
instance : Absorbing ℝ where
  isFinite_of_add _ _ _ := ⟨rfl, rfl⟩
  isFinite_of_sub _ _ _ := ⟨rfl, rfl⟩
  isFinite_of_mul _ _ _ := ⟨rfl, rfl⟩
  isFinite_of_div _ _ _ := rfl
  isFinite_of_abs _ _ := rfl
  isFinite_of_sqrt _ _ := rfl
  isNumber_of_sub x y _ := ⟨le_refl x, le_refl y⟩
  isNumber_of_div x _ _ := le_refl x
  isNumber_sub_right x y _ _ := le_refl (x - y)
  isFinite_or_of_sub _ _ _ _ _ := .inl rfl
  isFinite_or_of_div _ _ _ := .inl rfl
  isFinite_of_mul_div _ _ _ := rfl
  isFinite_of_zero_le_sub _ _ _ _ := rfl
  zero_le_of_half _ _ h := absurd rfl h
  nonneg_sub _ _ _ h := absurd rfl h
  le_of_not_isFinite _ _ _ h := absurd rfl h

end Scalar

namespace Single

open Float.Model (UnpackedFloat)
open Float.Model.UnpackedFloat (Sign)

variable {u v : UnpackedFloat}

/-! ## Packing -/

/-- What is not finite is packed as it is. -/
theorem parts_ofParts_of_not_isFinite (h : ¬ u.isFinite = true) : parts (ofParts u) = u := by
  rcases u with s | _ | s | ⟨s, m, e, hm⟩ <;> (try cases s) <;>
    first
      | rfl
      | exact absurd rfl h

/-- What is packed to a finite number is finite. -/
theorem isFinite_of_ofParts (h : (parts (ofParts u)).isFinite = true) : u.isFinite = true := by
  by_contra hu
  rw [parts_ofParts_of_not_isFinite hu] at h
  exact hu h

/-- What is packed to a number is a number. -/
theorem ne_of_ofParts (h : parts (ofParts u) ≠ .notANumber) : u ≠ .notANumber := by
  rintro rfl
  exact h rfl

/-- Of the values that are not below zero, only the positive infinity is a number but not
finite. -/
theorem eq_infinity (hu : u ≠ .notANumber) (hu' : ¬ IsBelow u) (h : ¬ u.isFinite = true) :
    u = .infinity .positive := by
  rcases u with s | _ | s | ⟨s, m, e, hm⟩ <;> (try cases s) <;>
    first
      | rfl
      | contradiction
      | exact absurd trivial hu'

/-! ## Finite results -/

/-- A finite sum has finite summands. -/
theorem isFinite_of_add (h : (u.add .binary32 v).isFinite = true) :
    u.isFinite = true ∧ v.isFinite = true := by
  rcases u with s | _ | s | ⟨s, m, e, hm⟩ <;> rcases v with t | _ | t | ⟨t, m', e', hm'⟩ <;>
    (try cases s) <;> (try cases t) <;>
    first
      | exact ⟨rfl, rfl⟩
      | cases h

/-- A finite difference has finite operands. -/
theorem isFinite_of_sub (h : (u.sub .binary32 v).isFinite = true) :
    u.isFinite = true ∧ v.isFinite = true := by
  rcases u with s | _ | s | ⟨s, m, e, hm⟩ <;> rcases v with t | _ | t | ⟨t, m', e', hm'⟩ <;>
    (try cases s) <;> (try cases t) <;>
    first
      | exact ⟨rfl, rfl⟩
      | cases h

/-- A finite product has finite factors. -/
theorem isFinite_of_mul (h : (u.mul .binary32 v).isFinite = true) :
    u.isFinite = true ∧ v.isFinite = true := by
  rcases u with s | _ | s | ⟨s, m, e, hm⟩ <;> rcases v with t | _ | t | ⟨t, m', e', hm'⟩ <;>
    first
      | exact ⟨rfl, rfl⟩
      | cases h

/-- A finite quotient has a finite dividend. -/
theorem isFinite_of_div (h : (u.div .binary32 v).isFinite = true) : u.isFinite = true := by
  rcases u with s | _ | s | ⟨s, m, e, hm⟩ <;> rcases v with t | _ | t | ⟨t, m', e', hm'⟩ <;>
    first
      | rfl
      | cases h

theorem isFinite_of_abs (h : u.abs.isFinite = true) : u.isFinite = true := by
  cases u <;>
    first
      | rfl
      | cases h

/-- A finite root has a finite operand. -/
theorem isFinite_of_sqrt (h : (u.sqrt .binary32).isFinite = true) : u.isFinite = true := by
  rcases u with s | _ | s | ⟨s, m, e, hm⟩ <;> (try cases s) <;>
    first
      | rfl
      | cases h

/-! ## Results that are numbers -/

/-- A difference that is a number has operands that are. -/
theorem ne_of_sub (h : u.sub .binary32 v ≠ .notANumber) : u ≠ .notANumber ∧ v ≠ .notANumber := by
  constructor
  · rintro rfl
    exact h rfl
  · rintro rfl
    cases u <;> exact h rfl

/-- A sum that is a number has summands that are. -/
theorem ne_of_add (h : u.add .binary32 v ≠ .notANumber) : u ≠ .notANumber ∧ v ≠ .notANumber := by
  constructor
  · rintro rfl
    exact h rfl
  · rintro rfl
    cases u <;> exact h rfl

/-- A product that is a number has factors that are. -/
theorem ne_of_mul (h : u.mul .binary32 v ≠ .notANumber) : u ≠ .notANumber ∧ v ≠ .notANumber := by
  constructor
  · rintro rfl
    exact h rfl
  · rintro rfl
    cases u <;> exact h rfl

/-- A quotient that is a number has a dividend that is. -/
theorem ne_of_div (h : u.div .binary32 v ≠ .notANumber) : u ≠ .notANumber := by
  rintro rfl
  exact h rfl

/-- Rounded to single precision, a sum that is a number still has summands that are. -/
theorem isNumber_of_add {x y : Float32} (h : Scalar.IsNumber (x + y)) :
    Scalar.IsNumber x ∧ Scalar.IsNumber y := by
  obtain ⟨hx, hy⟩ := ne_of_add (ne_of_ofParts (isNumber_iff.1 h))
  exact ⟨isNumber_iff.2 hx, isNumber_iff.2 hy⟩

/-- Two infinities of one sign have no difference. -/
theorem isFinite_or_of_sub (hu : ¬ IsBelow u) (hv : ¬ IsBelow v)
    (h : u.sub .binary32 v ≠ .notANumber) : u.isFinite = true ∨ v.isFinite = true := by
  by_contra hboth
  obtain ⟨hu', hv'⟩ := not_or.1 hboth
  obtain ⟨hne, hne'⟩ := ne_of_sub h
  rw [eq_infinity hne hu hu', eq_infinity hne' hv hv'] at h
  exact h rfl

/-- Two infinities have no quotient. -/
theorem isFinite_or_of_div (h : u.div .binary32 v ≠ .notANumber) :
    u.isFinite = true ∨ v.isFinite = true := by
  rcases u with s | _ | s | ⟨s, m, e, hm⟩ <;> rcases v with t | _ | t | ⟨t, m', e', hm'⟩ <;>
    first
      | exact .inl rfl
      | exact .inr rfl
      | exact absurd rfl h

/-- What can be divided by an infinity comes to a zero. -/
theorem div_infinity (u : UnpackedFloat) (t : Sign) :
    u.div .binary32 (.infinity t) = .notANumber ∨ ∃ s, u.div .binary32 (.infinity t) = .zero s := by
  rcases u with s | _ | s | ⟨s, m, e, hm⟩
  · exact .inl rfl
  · exact .inl rfl
  · exact .inr ⟨_, rfl⟩
  · exact .inr ⟨_, rfl⟩

/-- A zero and an infinity have no product. -/
theorem isFinite_of_mul_div (h : v.mul .binary32 (parts (ofParts (u.div .binary32 v))) ≠
    .notANumber) : v.isFinite = true := by
  rcases v with t | _ | t | ⟨t, m, e, hm⟩
  case infinity =>
    rcases div_infinity u t with hdiv | ⟨s, hdiv⟩
    · rw [hdiv] at h
      exact absurd rfl h
    · rw [hdiv] at h
      cases s <;> exact absurd rfl h
  case notANumber => exact absurd rfl h
  case zero => rfl
  case finite => rfl

/-! ## Signs -/

/-- Taking an infinity from anything leads below zero, or to what is no number. -/
theorem isFinite_of_not_isBelow_sub (h : u.sub .binary32 v ≠ .notANumber)
    (h' : ¬ IsBelow (parts (ofParts (u.sub .binary32 v)))) (hv : ¬ IsBelow v) :
    v.isFinite = true := by
  by_contra hv'
  rw [parts_ofParts_of_not_isFinite fun hfinite => hv' (isFinite_of_sub hfinite).2] at h'
  obtain rfl := eq_infinity (ne_of_sub h).2 hv hv'
  rcases u with s | _ | s | ⟨s, m, e, hm⟩ <;> (try cases s) <;>
    first
      | exact h rfl
      | exact h' trivial

/-- Half of the negative infinity is the negative infinity. -/
theorem not_isBelow_of_half
    (h : ¬ IsBelow (parts (ofParts (u.div .binary32 (parts (2.0 : Float32))))))
    (hu : ¬ u.isFinite = true) : ¬ IsBelow u := by
  rw [parts_ofParts_of_not_isFinite fun hfinite => hu (isFinite_of_div hfinite), parts_two] at h
  rcases u with s | _ | s | ⟨s, m, e, hm⟩ <;> (try cases s) <;>
    first
      | exact id
      | exact absurd rfl hu
      | exact absurd trivial h

/-- Nothing that is taken from an infinity leads below zero. -/
theorem not_isBelow_sub (hu : ¬ IsBelow u) (hu' : ¬ u.isFinite = true) :
    ¬ IsBelow (u.sub .binary32 v) := by
  rcases u with s | _ | s | ⟨s, m, e, hm⟩ <;> rcases v with t | _ | t | ⟨t, m', e', hm'⟩ <;>
    (try cases s) <;> (try cases t) <;>
    first
      | exact id
      | exact absurd trivial hu
      | exact absurd rfl hu'

/-- Nothing is greater than the positive infinity. -/
theorem rank_le_infinity (v : UnpackedFloat) : rank v ≤ rank (.infinity .positive) := by
  rcases v with t | _ | t | ⟨t, m', e', hm'⟩ <;> (try cases t) <;> dsimp only [rank] <;>
    simp [Prod.Lex.toLex_le_toLex]

/-- No number is above the infinity. -/
theorem le_of_infinity {x y : Float32} (hy : parts y = .infinity .positive)
    (hx : Scalar.IsNumber x) : x ≤ y := by
  rw [le_iff, hy]
  exact ⟨isNumber_iff.1 hx, nofun, rank_le_infinity _⟩

/-! ## The rules -/

instance : Scalar.Absorbing Float32 where
  isFinite_of_add _ _ h := isFinite_of_add (isFinite_of_ofParts h)
  isFinite_of_sub _ _ h := isFinite_of_sub (isFinite_of_ofParts h)
  isFinite_of_mul _ _ h := isFinite_of_mul (isFinite_of_ofParts h)
  isFinite_of_div _ _ h := isFinite_of_div (isFinite_of_ofParts h)
  isFinite_of_abs _ h := isFinite_of_abs (isFinite_of_ofParts h)
  isFinite_of_sqrt _ h := isFinite_of_sqrt (isFinite_of_ofParts h)
  isNumber_of_sub x y h := by
    obtain ⟨hx, hy⟩ := ne_of_sub (ne_of_ofParts (isNumber_iff.1 h))
    exact ⟨isNumber_iff.2 hx, isNumber_iff.2 hy⟩
  isNumber_of_div x y h := isNumber_iff.2 (ne_of_div (ne_of_ofParts (isNumber_iff.1 h)))
  isNumber_sub_right x y hx hy :=
    isNumber_ofParts (exists_sign_sub (isNumber_iff.1 hx) (ne_of_isFinite hy) (.inr hy))
  isFinite_or_of_sub x y hx hy h :=
    isFinite_or_of_sub ((nonneg_iff x).1 hx) ((nonneg_iff y).1 hy)
      (ne_of_ofParts (isNumber_iff.1 h))
  isFinite_or_of_div _ _ h := isFinite_or_of_div (ne_of_ofParts (isNumber_iff.1 h))
  isFinite_of_mul_div _ _ h := isFinite_of_mul_div (ne_of_ofParts (isNumber_iff.1 h))
  isFinite_of_zero_le_sub x y h hy := by
    rw [zero_le_iff] at h
    exact isFinite_of_not_isBelow_sub (ne_of_ofParts h.1) h.2 ((nonneg_iff y).1 hy)
  zero_le_of_half x h hx := by
    rw [zero_le_iff] at h ⊢
    exact ⟨ne_of_div (ne_of_ofParts h.1), not_isBelow_of_half h.2 hx⟩
  nonneg_sub x y hx hx' := nonneg_ofParts (not_isBelow_sub ((nonneg_iff x).1 hx) hx')
  le_of_not_isFinite x y hx hx' hy := by
    rw [zero_le_iff] at hx
    exact le_of_infinity (eq_infinity hx.1 hx.2 hx') hy

end Single

end Toolpath
