import Toolpath.Proofs.QuotientTheorems

/-!
# Counts in single precision

The number that stands for a count is the nearest one (`Single.isRounding_ofCount`), so that of two
counts the greater one has no lesser number (`Single.ofCount_le_ofCount`).

A positive count is scaled until its leading bit is the leading bit of a mantissa (`scaled_mem`) and
rounded to a whole number there. Where that carries over to one bit more, half of it at the next
exponent is the same magnitude, in the same pattern (`exists_isCanonical_of_carry`).
-/

namespace Toolpath

namespace Single

open Float.Model (Format)
open Float.Model.UnpackedFloat (Sign)
open Number (BinaryFormat Ratio singleDatum)

/-! ## Patterns of magnitudes -/

/-- The pattern of a magnitude, or of infinity past the last one, has that magnitude. -/
theorem hasMagnitude_ofBits {m : ℕ} {e : ℤ} (h : Binary.IsCanonical .binary32 m e) :
    HasMagnitude .positive (m * 2 ^ e) (Float32.ofBits (UInt32.ofNat
      (min BinaryFormat.single.infinityBits (BinaryFormat.single.magnitudeBits m e)))) := by
  have hpos : (0 : ℝ) ≤ m * 2 ^ e := by positivity
  rcases le_or_gt e 104 with he | he
  · have hstored := isStored_of_isCanonical h he
    rw [min_eq_right hstored.finite.le]
    have hdatum := BinaryFormat.decode_withSign false hstored
    rw [withSign_false, ← singleDatum_ofBits (hstored.finite.trans (by decide))] at hdatum
    obtain ⟨hfinite, hsign, hvalue⟩ := of_singleDatum hdatum
    exact .inr ⟨hfinite, hsign, by rw [hvalue, abs_of_nonneg hpos]⟩
  · have hlarge : BinaryFormat.single.infinityBits ≤ BinaryFormat.single.magnitudeBits m e := by
      have hfull : 2 ^ 23 ≤ m := h.full.resolve_right fun hleast => by
        have hmin : Format.binary32.minExponent = -149 := rfl
        omega
      have hplace : 254 ≤ (e - -149).toNat := by omega
      have hfield := Nat.mul_le_mul_right (2 ^ 23) hplace
      show 255 * 2 ^ 23 ≤ (e - -149).toNat * 2 ^ 23 + m
      omega
    have hinfinity : parts (Float32.ofBits (UInt32.ofNat BinaryFormat.single.infinityBits)) =
        .infinity .positive := by
      rfl
    rw [min_eq_left hlarge]
    exact .inl ⟨hinfinity, le_value_of_large h he⟩

/-- A mantissa that has been carried over is half of it at the next exponent, in the same
pattern. -/
theorem exists_isCanonical_of_carry {n : ℕ} {k : ℤ} (hfull : 2 ^ 23 ≤ n) (hle : n ≤ 2 ^ 24)
    (hk : -149 ≤ k) : ∃ m e, Binary.IsCanonical .binary32 m e ∧ (m : ℝ) * 2 ^ e = n * 2 ^ k ∧
      BinaryFormat.single.magnitudeBits m e = BinaryFormat.single.magnitudeBits n k := by
  rcases Nat.lt_or_eq_of_le hle with hlt | rfl
  · exact ⟨n, k, ⟨by omega, hlt, hk, .inl hfull⟩, rfl, rfl⟩
  · have hleast : Format.binary32.minExponent ≤ k + 1 := hk.trans (by omega)
    refine ⟨2 ^ 23, k + 1, ⟨by decide, by decide, hleast, .inl le_rfl⟩, ?_, ?_⟩
    · rw [zpow_add_one₀ two_ne_zero]
      push_cast
      ring
    · have hplace : (k + 1 - -149).toNat = (k - -149).toNat + 1 := by omega
      show (k + 1 - -149).toNat * 2 ^ 23 + 2 ^ 23 = (k - -149).toNat * 2 ^ 23 + 2 ^ 24
      rw [hplace]
      omega

/-! ## Counts -/

/-- Scaled by its leading bit, a number has that bit at the place of the leading bit of a
mantissa. -/
theorem scaled_mem {x : ℝ} (hx : 0 < x) :
    (2 : ℝ) ^ 23 ≤ x / 2 ^ (Int.log 2 x - 23) ∧ x / 2 ^ (Int.log 2 x - 23) < 2 ^ 24 := by
  have hlow := Int.zpow_log_le_self (b := 2) one_lt_two hx
  have hhigh := Int.lt_zpow_succ_log_self (b := 2) one_lt_two x
  push_cast at hlow hhigh
  have hunit : (0 : ℝ) < 2 ^ (Int.log 2 x - 23) := by positivity
  constructor
  · rw [le_div_iff₀ hunit, ← zpow_natCast, ← zpow_add₀ two_ne_zero]
    rwa [show ((23 : ℕ) : ℤ) + (Int.log 2 x - 23) = Int.log 2 x by push_cast; ring]
  · rw [div_lt_iff₀ hunit, ← zpow_natCast, ← zpow_add₀ two_ne_zero]
    rwa [show ((24 : ℕ) : ℤ) + (Int.log 2 x - 23) = Int.log 2 x + 1 by push_cast; ring]

/-- A count is stored by the nearest whole number to its scaled self, which is nearest to it. -/
theorem exists_mantissa_of_count {n : ℕ} (hn : 0 < n) : ∃ (q : ℕ) (k : ℤ), 2 ^ 23 ≤ q ∧
    q ≤ 2 ^ 24 ∧ -149 ≤ k ∧ Binary.IsNearest .binary32 n (q * 2 ^ k) ∧
      BinaryFormat.single.encodeMagnitude (.ofNat n) =
        min BinaryFormat.single.infinityBits (BinaryFormat.single.magnitudeBits q k) := by
  have hlog : 0 ≤ Int.log 2 (n : ℝ) := by
    rw [Int.log_natCast]
    exact Int.natCast_nonneg _
  have hplace : -149 ≤ Int.log 2 (n : ℝ) - 23 := by omega
  obtain ⟨hlow, hhigh⟩ := scaled_mem (Nat.cast_pos.2 hn : (0 : ℝ) < n)
  -- the unit that leaves a mantissa of 24 bits
  generalize hk : Int.log 2 (n : ℝ) - 23 = k at hlow hhigh hplace
  have hunit : (0 : ℝ) < 2 ^ k := by positivity
  have hscale : ((Ratio.ofNat n).scale 2 (-k)).toReal = n / 2 ^ k := by
    rw [Ratio.toReal_scale two_pos, Ratio.toReal_ofNat, Nat.cast_ofNat, zpow_neg, div_eq_mul_inv]
  have hden : 0 < ((Ratio.ofNat n).scale 2 (-k)).den := Ratio.den_scale_pos two_pos Nat.one_pos _
  have hnear := Ratio.abs_roundHalfEven_sub_le hden
  have htie := Ratio.roundHalfEven_even hden
  rw [hscale] at hnear htie
  generalize ((Ratio.ofNat n).scale 2 (-k)).roundHalfEven = q at hnear htie
  refine ⟨q, k, ?_, ?_, hplace, ?_, ?_⟩
  · exact Binary.ge_of_abs_sub_le hnear (by exact_mod_cast hlow)
  · exact Binary.le_of_abs_sub_le hnear (by exact_mod_cast hhigh.le)
  · apply Binary.isNearest_of_abs_sub_le _ hnear
    · rwa [abs_sub_comm]
    · rw [le_div_iff₀ hunit] at hlow
      exact fun _ => hlow
  · apply BinaryFormat.encodeMagnitude_of_near hn Nat.one_pos
    · rw [Ratio.toReal_ofNat, max_eq_right]
      · exact hk
      · exact hplace.trans_eq hk.symm
    · rwa [Ratio.toReal_ofNat, zpow_neg, ← div_eq_mul_inv, abs_sub_comm]
    · rwa [Ratio.toReal_ofNat, zpow_neg, ← div_eq_mul_inv]

/-- The number of a count is the nearest one. -/
theorem isRounding_ofCount (n : ℕ) : IsRounding n (Scalar.ofCount n : Float32) := by
  rcases n.eq_zero_or_pos with rfl | hn
  · have hzero : IsRounding (value (parts 0.0)) (0.0 : Float32) := isRounding_self rfl
    exact_mod_cast hzero
  obtain ⟨q, k, hfull, hle, hk, hnearest, hencode⟩ := exists_mantissa_of_count hn
  obtain ⟨m, e, hcanonical, hvalue, hfield⟩ := exists_isCanonical_of_carry hfull hle hk
  have hcount : (Scalar.ofCount n : Float32) = Float32.ofBits (UInt32.ofNat
      (min BinaryFormat.single.infinityBits (BinaryFormat.single.magnitudeBits m e))) := by
    show Number.singleOfInt n = _
    unfold Number.singleOfInt BinaryFormat.encode
    rw [decide_eq_false (by omega), withSign_false, Int.natAbs_natCast, hencode, hfield]
  rw [← hvalue] at hnearest
  rw [hcount]
  refine ⟨.positive, n, m * 2 ^ e, n.cast_nonneg, ?_, hnearest, .inr ⟨m, e, hcanonical, rfl⟩,
    hasMagnitude_ofBits hcanonical⟩
  norm_num [Sign.apply]

/-- Of two counts the greater one has no lesser number. -/
theorem ofCount_le_ofCount {m n : ℕ} (h : m ≤ n) :
    (Scalar.ofCount m : Float32) ≤ Scalar.ofCount n :=
  (isRounding_ofCount m).mono (isRounding_ofCount n) (Nat.cast_le.2 h)

/-- The number of a count is above zero, unless there is nothing to count. -/
theorem zero_lt_ofCount {n : ℕ} (h : 0 < n) : (0.0 : Float32) < Scalar.ofCount n :=
  Scalar.num_lt_of_lt_of_le (by decide +kernel : (0.0 : Float32) < Scalar.ofCount 1)
    (ofCount_le_ofCount h)

end Single

end Toolpath
