import Toolpath.Number.Decimal
import Toolpath.Proofs.RatioTheorems

/-!
# Spellings of a number

One number has many spellings: zeros in front and behind, a point or an exponent. Reading it rounds
the exact value once, and rounding sees the value alone, not the ratio it is given as
(`BinaryFormat.encodeMagnitude_congr`). So all spellings of a number are read alike
(`Decimal.toDouble_congr`), but for the sign of a zero.
-/

namespace Toolpath.Number

/-- Ratios of one value have the same nearest number. -/
theorem BinaryFormat.encodeMagnitude_congr (f : BinaryFormat) {r r' : Ratio} (hr : 0 < r.den)
    (hr' : 0 < r'.den) (h : r.toReal = r'.toReal) :
    f.encodeMagnitude r = f.encodeMagnitude r' := by
  have hcross := (Ratio.toReal_eq_iff hr hr').1 h
  unfold encodeMagnitude
  rcases r.num.eq_zero_or_pos with hzero | hpos
  · have hzero' : r'.num = 0 := by
      rw [hzero, zero_mul, eq_comm, Nat.mul_eq_zero] at hcross
      exact hcross.resolve_right hr.ne'
    rw [if_pos hzero, if_pos hzero']
  · have hpos' : 0 < r'.num := Nat.pos_of_ne_zero fun hzero' => by
      rw [hzero', zero_mul, Nat.mul_eq_zero] at hcross
      exact hcross.elim hpos.ne' hr'.ne'
    have hlog : r.log2 = r'.log2 := by
      rw [Ratio.log2_eq hpos hr, Ratio.log2_eq hpos' hr', h]
    have hround : ∀ k, (r.scale 2 k).roundHalfEven = (r'.scale 2 k).roundHalfEven := fun k =>
      Ratio.roundHalfEven_congr (Ratio.den_scale_pos two_pos hr k)
        (Ratio.den_scale_pos two_pos hr' k)
        (by rw [Ratio.toReal_scale two_pos, Ratio.toReal_scale two_pos, h])
    rw [if_neg hpos.ne', if_neg hpos'.ne']
    dsimp only
    rw [hlog, hround]

theorem doubleOfRatio_congr (negative : Bool) {r r' : Ratio} (hr : 0 < r.den) (hr' : 0 < r'.den)
    (h : r.toReal = r'.toReal) : doubleOfRatio negative r = doubleOfRatio negative r' := by
  unfold doubleOfRatio BinaryFormat.encode
  rw [BinaryFormat.double.encodeMagnitude_congr hr hr' h]

namespace Decimal

variable {d d' : Decimal}

/-- The value of a decimal without its sign. -/
noncomputable def magnitude (d : Decimal) : ℝ := d.digits * ((10 : ℕ) : ℝ) ^ d.exponent

/-- The value of a decimal. -/
noncomputable def toReal (d : Decimal) : ℝ := (if d.negative then -1 else 1) * d.magnitude

theorem magnitude_nonneg (d : Decimal) : 0 ≤ d.magnitude := by
  unfold magnitude
  positivity

theorem magnitude_eq_zero : d.magnitude = 0 ↔ d.digits = 0 := by
  have hne : ((10 : ℕ) : ℝ) ^ d.exponent ≠ 0 := by positivity
  unfold magnitude
  rw [mul_eq_zero, or_iff_left hne, Nat.cast_eq_zero]

/-- The size of a decimal is the place of its leading digit. -/
theorem size_eq (h : 0 < d.digits) :
    d.exponent + (Nat.toDigits 10 d.digits).length = Int.log 10 d.magnitude + 1 := by
  obtain ⟨k, hk⟩ : ∃ k, (Nat.toDigits 10 d.digits).length = k + 1 :=
    ⟨_, (Nat.succ_pred_eq_of_pos Nat.length_toDigits_pos).symm⟩
  have hlt : d.digits < 10 ^ (k + 1) :=
    (Nat.length_toDigits_le_iff (by decide) k.succ_pos).1 hk.le
  have hle : 10 ^ k ≤ d.digits := by
    rcases k.eq_zero_or_pos with rfl | hpos
    · exact h
    · refine not_lt.1 fun hless => ?_
      have hshort := (Nat.length_toDigits_le_iff (by decide) hpos).2 hless
      omega
  have hlow : ((10 : ℕ) : ℝ) ^ (k + d.exponent) ≤ d.magnitude := by
    rw [zpow_add₀ (by norm_num), zpow_natCast]
    exact mul_le_mul_of_nonneg_right (by exact_mod_cast hle) (by positivity)
  have hhigh : d.magnitude < ((10 : ℕ) : ℝ) ^ (k + d.exponent + 1) := by
    rw [add_right_comm, zpow_add₀ (by norm_num)]
    exact mul_lt_mul_of_pos_right (by exact_mod_cast hlt) (by positivity)
  rw [Ratio.log_eq_of_mem (by decide) hlow hhigh, hk]
  omega

/-- Spellings of one number are read alike. -/
theorem toDouble_congr (hsign : d.negative = d'.negative) (h : d.magnitude = d'.magnitude) :
    d.toDouble = d'.toDouble := by
  have hzero : d.digits = 0 ↔ d'.digits = 0 := by
    rw [← magnitude_eq_zero, ← magnitude_eq_zero, h]
  unfold toDouble
  dsimp only
  rcases d.digits.eq_zero_or_pos with hnone | hpos
  · rw [if_pos (.inl hnone), if_pos (.inl (hzero.1 hnone)), hsign]
  · have hpos' : 0 < d'.digits := Nat.pos_of_ne_zero (mt hzero.2 hpos.ne')
    have hround : doubleOfRatio d.negative ((Ratio.ofNat d.digits).scale 10 d.exponent) =
        doubleOfRatio d'.negative ((Ratio.ofNat d'.digits).scale 10 d'.exponent) := by
      have hvalue : ∀ d : Decimal,
          ((Ratio.ofNat d.digits).scale 10 d.exponent).toReal = d.magnitude := fun d => by
        rw [Ratio.toReal_scale (by decide), Ratio.toReal_ofNat]
        rfl
      rw [hsign]
      exact doubleOfRatio_congr _ (Ratio.den_scale_pos (by decide) one_pos _)
        (Ratio.den_scale_pos (by decide) one_pos _) (by rw [hvalue, hvalue, h])
    simp only [hpos.ne', hpos'.ne', false_or]
    rw [size_eq hpos, size_eq hpos', h, hround, hsign]

/-- Decimals of one value are read alike, unless they are zeros. -/
theorem toDouble_eq_of_toReal_eq (h : d.toReal = d'.toReal) :
    d.toDouble = d'.toDouble ∨ d.digits = 0 ∧ d'.digits = 0 := by
  have habs : ∀ d : Decimal, |d.toReal| = d.magnitude := fun d => by
    unfold toReal
    cases d.negative with
    | false => rw [if_neg Bool.false_ne_true, one_mul, abs_of_nonneg d.magnitude_nonneg]
    | true => rw [if_pos rfl, neg_one_mul, abs_neg, abs_of_nonneg d.magnitude_nonneg]
  have hmagnitude : d.magnitude = d'.magnitude := by rw [← habs, ← habs, h]
  by_cases hzero : d.digits = 0
  · exact .inr ⟨hzero, magnitude_eq_zero.1 (hmagnitude ▸ magnitude_eq_zero.2 hzero)⟩
  · left
    refine toDouble_congr ?_ hmagnitude
    have hpos : 0 < d'.magnitude :=
      hmagnitude ▸ d.magnitude_nonneg.lt_of_ne' (mt magnitude_eq_zero.1 hzero)
    unfold toReal at h
    rw [hmagnitude] at h
    have hsign := mul_right_cancel₀ hpos.ne' h
    cases hd : d.negative <;> cases hd' : d'.negative <;>
      rw [hd, hd'] at hsign <;> norm_num at hsign

end Decimal

end Toolpath.Number
