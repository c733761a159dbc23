import Mathlib.Algebra.Order.Archimedean.Real.Basic
import Mathlib.Algebra.Order.Field.Power
import Mathlib.Data.Int.Log
import Mathlib.Data.Real.Basic
import Mathlib.Tactic.FieldSimp
import Mathlib.Tactic.Linarith
import Mathlib.Tactic.NormNum
import Mathlib.Tactic.Positivity
import Mathlib.Tactic.Ring
import Mathlib.Tactic.SplitIfs
import Toolpath.Number.Ratio

/-!
# Values of ratios

Scaling a ratio multiplies its value by a power (`Ratio.toReal_scale`), and rounding it to a whole
number changes its value by a half at most (`Ratio.abs_roundHalfEven_sub_le`,
`Ratio.abs_roundHalfUp_sub_le`). Neither the leading bit nor the rounded number depends on more than
the value (`Ratio.log2_eq`, `Ratio.roundHalfEven_congr`).
-/

namespace Toolpath.Number.Ratio

/-- The value of a ratio. -/
noncomputable def toReal (r : Ratio) : ℝ := r.num / r.den

theorem toReal_ofNat (n : ℕ) : (ofNat n).toReal = n := by
  unfold toReal ofNat
  rw [Nat.cast_one, div_one]

theorem den_scale_pos {base : ℕ} (hbase : 0 < base) {r : Ratio} (h : 0 < r.den) (k : ℤ) :
    0 < (r.scale base k).den := by
  cases k with
  | ofNat k => exact h
  | negSucc k => exact Nat.mul_pos h (Nat.pow_pos hbase)

/-- A scaled ratio is the ratio times a power. -/
theorem toReal_scale {base : ℕ} (hbase : 0 < base) (r : Ratio) (k : ℤ) :
    (r.scale base k).toReal = r.toReal * (base : ℝ) ^ k := by
  have hne : (base : ℝ) ≠ 0 := by exact_mod_cast hbase.ne'
  unfold toReal
  cases k with
  | ofNat k =>
    show ((r.num * base ^ k : ℕ) : ℝ) / r.den = _
    rw [Int.ofNat_eq_natCast, zpow_natCast]
    push_cast
    ring
  | negSucc k =>
    show (r.num : ℝ) / ((r.den * base ^ (k + 1) : ℕ) : ℝ) = _
    rw [zpow_negSucc]
    push_cast
    rw [div_mul_eq_div_div, div_eq_mul_inv _ ((base : ℝ) ^ (k + 1))]

theorem num_pos_of_toReal_pos {r : Ratio} (h : 0 < r.toReal) : 0 < r.num :=
  Nat.pos_of_ne_zero fun hzero => by
    rw [toReal, hzero, Nat.cast_zero, zero_div] at h
    exact h.false

/-- A whole ratio is its whole part. -/
theorem toReal_of_isWhole {r : Ratio} (h : 0 < r.den) (hwhole : r.isWhole = true) :
    r.toReal = r.floor := by
  have hden : (r.den : ℝ) ≠ 0 := by exact_mod_cast h.ne'
  have hmod : r.num % r.den = 0 := beq_iff_eq.1 hwhole
  have hnum : r.floor * r.den = r.num := Nat.div_mul_cancel (Nat.dvd_of_mod_eq_zero hmod)
  unfold toReal
  rw [← hnum]
  push_cast
  exact mul_div_cancel_right₀ _ hden

variable {r r' : Ratio}

/-- Ratios are compared crosswise. -/
theorem toReal_eq_iff (hr : 0 < r.den) (hr' : 0 < r'.den) :
    r.toReal = r'.toReal ↔ r.num * r'.den = r'.num * r.den := by
  have hden : (r.den : ℝ) ≠ 0 := by exact_mod_cast hr.ne'
  have hden' : (r'.den : ℝ) ≠ 0 := by exact_mod_cast hr'.ne'
  unfold toReal
  rw [div_eq_div_iff hden hden']
  exact_mod_cast Iff.rfl

/-! ## Leading bits -/

/-- A number between two powers has the logarithm of the first. -/
theorem log_eq_of_mem {base : ℕ} (hbase : 1 < base) {x : ℝ} {k : ℤ} (hle : (base : ℝ) ^ k ≤ x)
    (hlt : x < (base : ℝ) ^ (k + 1)) : Int.log base x = k := by
  have hpos : 0 < x := (zpow_pos (by exact_mod_cast one_pos.trans hbase) k).trans_le hle
  have hlow : k ≤ Int.log base x := (Int.zpow_le_iff_le_log hbase hpos).1 hle
  have hhigh : Int.log base x < k + 1 := (Int.lt_zpow_iff_log_lt hbase hpos).1 hlt
  omega

/-- Powers are compared with ratios exactly. -/
theorem powLe_iff {base : ℕ} (hbase : 0 < base) (k : ℤ) (hr : 0 < r.den) :
    powLe base k r = true ↔ (base : ℝ) ^ k ≤ r.toReal := by
  have hden := den_scale_pos hbase hr (-k)
  have hscale := toReal_scale hbase r (-k)
  have hpos : (0 : ℝ) < (base : ℝ) ^ k := zpow_pos (by exact_mod_cast hbase) k
  rw [zpow_neg, ← div_eq_mul_inv] at hscale
  unfold powLe
  dsimp only
  rw [decide_eq_true_iff, ← one_le_div₀ hpos, ← hscale]
  unfold toReal
  rw [one_le_div₀ (by exact_mod_cast hden)]
  exact Nat.cast_le.symm

/-- The exponent of the leading bit of a ratio. -/
theorem log2_eq (hnum : 0 < r.num) (hden : 0 < r.den) : r.log2 = Int.log 2 r.toReal := by
  have hden' : (0 : ℝ) < r.den := by exact_mod_cast hden
  have hlow : (2 : ℝ) ^ ((r.num.log2 : ℤ) - r.den.log2 - 1) ≤ r.toReal := by
    have hn : (2 : ℝ) ^ r.num.log2 ≤ r.num := by exact_mod_cast Nat.log2_self_le hnum.ne'
    have hd : (r.den : ℝ) ≤ 2 ^ (r.den.log2 + 1) := by exact_mod_cast Nat.lt_log2_self.le
    calc (2 : ℝ) ^ ((r.num.log2 : ℤ) - r.den.log2 - 1)
        = 2 ^ r.num.log2 / 2 ^ (r.den.log2 + 1) := by
          rw [sub_sub, zpow_sub₀ two_ne_zero, zpow_natCast]
          norm_cast
      _ ≤ r.num / r.den := div_le_div₀ (Nat.cast_nonneg _) hn hden' hd
  have hhigh : r.toReal < (2 : ℝ) ^ ((r.num.log2 : ℤ) - r.den.log2 + 1) := by
    have hn : (r.num : ℝ) < 2 ^ (r.num.log2 + 1) := by exact_mod_cast Nat.lt_log2_self
    have hd : (2 : ℝ) ^ r.den.log2 ≤ r.den := by exact_mod_cast Nat.log2_self_le hden.ne'
    calc r.toReal < 2 ^ (r.num.log2 + 1) / 2 ^ r.den.log2 :=
          div_lt_div₀ hn hd (by positivity) (by positivity)
      _ = (2 : ℝ) ^ ((r.num.log2 : ℤ) - r.den.log2 + 1) := by
          rw [sub_add_eq_add_sub, zpow_sub₀ two_ne_zero, zpow_natCast]
          norm_cast
  -- the difference of the lengths in bits is the logarithm or one more
  have hguess := powLe_iff two_pos ((r.num.log2 : ℤ) - r.den.log2) hden
  rw [Nat.cast_ofNat] at hguess
  unfold log2
  dsimp only
  split_ifs with hle
  · exact (log_eq_of_mem one_lt_two (by exact_mod_cast hguess.1 hle) (by exact_mod_cast hhigh)).symm
  · refine (log_eq_of_mem one_lt_two (by exact_mod_cast hlow) ?_).symm
    rw [sub_add_cancel]
    exact_mod_cast not_le.1 (mt hguess.2 hle)

/-- The exponent of a whole number is that of its leading bit. -/
theorem log2_ofNat {n : ℕ} (hn : 0 < n) : (ofNat n).log2 = n.log2 := by
  rw [log2_eq hn one_pos, toReal_ofNat, Int.log_natCast, Nat.log2_eq_log_two]

/-! ## Rounding -/

/-- Whole numbers less than one apart are the same. -/
theorem eq_of_abs_sub_lt {n t : ℕ} (h : |(n : ℝ) - t| < 1) : n = t := by
  have hint : |(n : ℤ) - t| < 1 := by exact_mod_cast h
  exact_mod_cast sub_eq_zero.1 (Int.abs_lt_one_iff.1 hint)

/-- A common factor makes no difference to rounding. -/
theorem roundHalfEven_mul (r : Ratio) {k : ℕ} (hk : 0 < k) :
    (⟨k * r.num, k * r.den⟩ : Ratio).roundHalfEven = r.roundHalfEven := by
  have hless : 2 * (k * (r.num % r.den)) < k * r.den ↔ 2 * (r.num % r.den) < r.den := by
    rw [Nat.mul_left_comm, Nat.mul_lt_mul_left hk]
  have hmore : k * r.den < 2 * (k * (r.num % r.den)) ↔ r.den < 2 * (r.num % r.den) := by
    rw [Nat.mul_left_comm, Nat.mul_lt_mul_left hk]
  unfold roundHalfEven
  dsimp only
  rw [Nat.mul_div_mul_left _ _ hk, Nat.mul_mod_mul_left]
  simp only [hless, hmore]

/-- Ratios of one value are rounded alike. -/
theorem roundHalfEven_congr (hr : 0 < r.den) (hr' : 0 < r'.den) (h : r.toReal = r'.toReal) :
    r.roundHalfEven = r'.roundHalfEven := by
  have hcross : r'.den * r.num = r.den * r'.num := by
    rw [mul_comm r'.den, (toReal_eq_iff hr hr').1 h, mul_comm]
  rw [← r.roundHalfEven_mul hr', ← r'.roundHalfEven_mul hr, hcross, mul_comm r'.den]

/-- Rounding to the nearest whole number, a half going to the even neighbour. -/
theorem abs_roundHalfEven_sub_le (h : 0 < r.den) :
    |(r.roundHalfEven : ℝ) - r.toReal| ≤ 1 / 2 := by
  have hden : (0 : ℝ) < r.den := by exact_mod_cast h
  have hsplit : r.toReal = (r.num / r.den : ℕ) + ((r.num % r.den : ℕ) : ℝ) / r.den := by
    have hcast : ((r.den * (r.num / r.den) + r.num % r.den : ℕ) : ℝ) = r.num := by
      exact_mod_cast Nat.div_add_mod r.num r.den
    unfold toReal
    rw [eq_comm, ← hcast]
    push_cast
    field_simp
  have hlt : r.num % r.den < r.den := Nat.mod_lt _ h
  rw [hsplit]
  unfold roundHalfEven
  dsimp only
  generalize r.num / r.den = whole
  generalize r.num % r.den = rest at hlt
  have hnonneg : (0 : ℝ) ≤ rest / r.den := by positivity
  have hone : (rest : ℝ) / r.den < 1 := by
    rw [div_lt_one hden]
    exact_mod_cast hlt
  -- below the half, above it, and on it, where the parity decides
  split_ifs with hless hmore
  · have hhalf : (rest : ℝ) / r.den ≤ 1 / 2 := by
      rw [div_le_div_iff₀ hden two_pos, one_mul]
      exact_mod_cast (by omega : rest * 2 ≤ r.den)
    rw [abs_le]
    constructor <;> linarith
  · have hhalf : 1 / 2 ≤ (rest : ℝ) / r.den := by
      rw [div_le_div_iff₀ two_pos hden, one_mul]
      exact_mod_cast (by omega : r.den ≤ rest * 2)
    push_cast
    rw [abs_le]
    constructor <;> linarith
  · have hhalf : (rest : ℝ) / r.den = 1 / 2 := by
      rw [div_eq_div_iff hden.ne' two_ne_zero, one_mul]
      exact_mod_cast (by omega : rest * 2 = r.den)
    rw [hhalf, abs_le]
    rcases Nat.mod_two_eq_zero_or_one whole with heven | hodd
    · rw [heven]
      constructor <;> norm_num
    · rw [hodd]
      push_cast
      constructor <;> linarith

/-- Rounding to the nearest whole number, a half going up. -/
theorem abs_roundHalfUp_sub_le (h : 0 < r.den) :
    |(r.roundHalfUp : ℝ) - r.toReal| ≤ 1 / 2 := by
  have hden : (0 : ℝ) < r.den := by exact_mod_cast h
  have hlow : r.roundHalfUp * (2 * r.den) ≤ 2 * r.num + r.den := Nat.div_mul_le_self _ _
  have hhigh : 2 * r.num + r.den < (r.roundHalfUp + 1) * (2 * r.den) :=
    (Nat.lt_mul_div_succ _ (by omega)).trans_eq (mul_comm _ _)
  have hlow' : (r.roundHalfUp : ℝ) * (2 * r.den) ≤ 2 * r.num + r.den := by exact_mod_cast hlow
  have hhigh' : 2 * (r.num : ℝ) + r.den < (r.roundHalfUp + 1) * (2 * r.den) := by
    exact_mod_cast hhigh
  have hvalue : r.toReal * r.den = r.num := div_mul_cancel₀ _ hden.ne'
  rw [← hvalue] at hlow' hhigh'
  rw [abs_le]
  constructor
  · exact le_of_mul_le_mul_right (by linarith : -(1 / 2) * (2 * (r.den : ℝ)) ≤ _) (by positivity)
  · exact le_of_mul_le_mul_right (by linarith : _ ≤ 1 / 2 * (2 * (r.den : ℝ))) (by positivity)

end Toolpath.Number.Ratio
