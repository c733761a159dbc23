import Mathlib.Algebra.Order.Floor.Semifield
import Mathlib.Data.Int.Log
import Toolpath.Proofs.PatternTheorems
import Toolpath.Proofs.SingleValueTheorems
import Toolpath.Proofs.TenthTheorems

/-!
# Whole quotients and rests

A number is divided by a whole one with a rounded quotient and an exact rest. The rounded quotient
has the whole part of the exact one, as long as it is not too great for its mantissa: it would have
to be rounded up to a whole number, and what is missing there is a multiple of the last place of the
dividend (`Single.floor_of_isNearest`).

* The whole part of a quotient is exact below a bound (`Single.countOfSingle_div`) and off by one
  and the rounding above it (`Single.abs_countOfSingle_div_sub_le`).
* The rest of a division is exact (`Single.value_remainder`).
-/

namespace Toolpath

namespace Binary

open Float.Model (Format)

variable {spec : Format} {m : ℕ} {e : ℤ}

/-- A mantissa that is not too long gets a leading bit, or the least exponent. -/
theorem exists_isCanonical (hm : 0 < m) (hlt : m < 2 ^ spec.mantissaBits)
    (he : spec.minExponent ≤ e) :
    ∃ m' e', IsCanonical spec m' e' ∧ e' ≤ e ∧ (m' : ℝ) * 2 ^ e' = m * 2 ^ e := by
  have hlog : m.log2 < spec.mantissaBits := (Nat.log2_lt hm.ne').2 hlt
  have hbits : spec.mantissaBits = 1 + spec.mantissaBitsWithoutImplicit := rfl
  obtain ⟨d, hd⟩ : ∃ d, d = min (spec.mantissaBitsWithoutImplicit - m.log2)
    (e - spec.minExponent).toNat := ⟨_, rfl⟩
  -- shifted as far as the mantissa is wide or the exponent can fall, whichever is less
  have hfits : m * 2 ^ d < 2 ^ spec.mantissaBits := by
    calc m * 2 ^ d < 2 ^ (m.log2 + 1) * 2 ^ d :=
          Nat.mul_lt_mul_of_pos_right Nat.lt_log2_self (Nat.two_pow_pos d)
      _ = 2 ^ (m.log2 + 1 + d) := (pow_add _ _ _).symm
      _ ≤ 2 ^ spec.mantissaBits := Nat.pow_le_pow_right two_pos (by omega)
  refine ⟨m * 2 ^ d, e - d, ⟨Nat.mul_pos hm (Nat.two_pow_pos d), hfits, by omega, ?_⟩, by omega, ?_⟩
  · rcases le_total (spec.mantissaBitsWithoutImplicit - m.log2) (e - spec.minExponent).toNat with
      hle | hle
    · left
      calc 2 ^ spec.mantissaBitsWithoutImplicit = 2 ^ m.log2 * 2 ^ d := by
            rw [← pow_add]
            congr 1
            omega
        _ ≤ m * 2 ^ d := Nat.mul_le_mul_right _ (Nat.log2_self_le hm.ne')
    · right
      omega
  · rw [zpow_sub₀ two_ne_zero, zpow_natCast]
    push_cast
    field_simp

theorem isValue_of_lt (hlt : m < 2 ^ spec.mantissaBits) (he : spec.minExponent ≤ e) :
    IsValue spec (m * 2 ^ e) := by
  rcases m.eq_zero_or_pos with rfl | hm
  · rw [Nat.cast_zero, zero_mul]
    exact .inl rfl
  · obtain ⟨m', e', hcanonical, -, hvalue⟩ := exists_isCanonical hm hlt he
    exact .inr ⟨m', e', hcanonical, hvalue.symm⟩

end Binary

namespace Single

open Float.Model (Format)
open Number (BinaryFormat Datum Ratio singleDatum countOfSingle)

/-! ## Whole parts of quotients -/

theorem isValue_natCast {n : ℕ} (hn : n < 2 ^ 24) : Binary.IsValue .binary32 n := by
  have hvalue := @Binary.isValue_of_lt .binary32 n 0 hn (by decide)
  rwa [zpow_zero, mul_one] at hvalue

theorem isValue_half : Binary.IsValue .binary32 (1 / 2) := by
  have hvalue := @Binary.isValue_of_lt .binary32 1 (-1) (by decide) (by decide)
  rwa [Nat.cast_one, one_mul, zpow_neg_one, ← one_div] at hvalue

/-- A rounded quotient differs by a small part of it from the exact one. -/
theorem abs_sub_le_of_isNearest {q v : ℝ} (h : Binary.IsNearest .binary32 q v) (hq : 1 / 2 ≤ q) :
    |v - q| ≤ 2 ^ (Int.log 2 q - 24) := by
  have hpos : 0 < q := one_half_pos.trans_le hq
  have hlog : -1 ≤ Int.log 2 q :=
    (Int.zpow_le_iff_le_log one_lt_two hpos).1 (by rw [Nat.cast_ofNat, zpow_neg_one]; linarith)
  have hlt : q < 2 ^ (Int.log 2 q + 1) := by exact_mod_cast Int.lt_zpow_succ_log_self one_lt_two q
  have hplace : Format.binary32.minExponent ≤ Int.log 2 q - 23 := by
    show -149 ≤ Int.log 2 q - 23
    omega
  have herror := h.abs_sub_le (Int.log 2 q - 23) hplace (by
    show q < 2 ^ 24 * 2 ^ (Int.log 2 q - 23)
    rw [← zpow_natCast, ← zpow_add₀ two_ne_zero]
    calc q < 2 ^ (Int.log 2 q + 1) := hlt
      _ = 2 ^ (((24 : ℕ) : ℤ) + (Int.log 2 q - 23)) := by
        congr 1
        push_cast
        ring)
  calc |v - q| ≤ 2 ^ (Int.log 2 q - 23) / 2 := herror
    _ = 2 ^ (Int.log 2 q - 24) := by
      rw [show Int.log 2 q - 23 = Int.log 2 q - 24 + 1 by ring, zpow_add_one₀ two_ne_zero]
      ring

theorem exists_mul_two_zpow {g e : ℤ} (h : g ≤ e) (m : ℕ) :
    ∃ a : ℕ, (a : ℝ) * 2 ^ g = m * 2 ^ e := by
  refine ⟨m * 2 ^ (e - g).toNat, ?_⟩
  have hpower : (2 : ℝ) ^ (e - g).toNat * 2 ^ g = 2 ^ e := by
    rw [← zpow_natCast, ← zpow_add₀ two_ne_zero]
    congr 1
    omega
  push_cast
  rw [mul_assoc, hpower]

section Floors

variable {x q v : ℝ} {c k j n : ℕ} {l : ℤ}

/-- A multiple of a whole number with low bits of zero is one of their places, too. -/
theorem exists_mul_eq_of_dvd {g : ℤ} (hdvd : 2 ^ j ∣ c) (hg : g ≤ j) (n : ℕ) :
    ∃ a : ℕ, (a : ℝ) * 2 ^ g = c * n := by
  obtain ⟨c', rfl⟩ := hdvd
  obtain ⟨a, ha⟩ := exists_mul_two_zpow hg (c' * n)
  refine ⟨a, ha.trans ?_⟩
  rw [zpow_natCast]
  push_cast
  ring

/-- The last place of a dividend is known from the leading bits of divisor and quotient. -/
theorem exists_eq_mul_of_isValue (hx : Binary.IsValue .binary32 x) (hdividend : x = c * q)
    (hle : 2 ^ k ≤ c) (hleading : (2 : ℝ) ^ l ≤ q) : ∃ b : ℕ, x = b * 2 ^ (l + k - 23) := by
  refine (hx.cases (l + k - 23)).resolve_right fun hshort => hshort.2.not_ge ?_
  have hcast : (2 : ℝ) ^ k ≤ c := by exact_mod_cast hle
  calc (2 : ℝ) ^ 23 * 2 ^ (l + k - 23) = 2 ^ k * 2 ^ l := by
        rw [← zpow_natCast, ← zpow_add₀ two_ne_zero, ← zpow_natCast, ← zpow_add₀ two_ne_zero]
        congr 1
        push_cast
        ring
    _ ≤ c * q := mul_le_mul hcast hleading (by positivity) (by positivity)
    _ = x := hdividend.symm

/-- A quotient below a whole number is not rounded up to it. -/
theorem ne_of_isNearest (hx : Binary.IsValue .binary32 x) (hdividend : x = c * q)
    (hle : 2 ^ k ≤ c) (hlt : c < 2 ^ (k + 1)) (hdvd : 2 ^ j ∣ c)
    (hbound : q < 2 ^ (24 + j - k : ℤ)) (h : Binary.IsNearest .binary32 q v) (hhalf : 1 / 2 < q)
    (hn : q < n) : v ≠ n := by
  rintro rfl
  have hc : (0 : ℝ) < c := by exact_mod_cast (Nat.two_pow_pos k).trans_le hle
  have herror := (le_abs_self _).trans (abs_sub_le_of_isNearest h hhalf.le)
  have hleading : (2 : ℝ) ^ Int.log 2 q ≤ q := by
    exact_mod_cast Int.zpow_log_le_self one_lt_two (one_half_pos.trans hhalf)
  generalize Int.log 2 q = l at herror hleading
  have hexponent := (zpow_lt_zpow_iff_right₀ one_lt_two).1 (hleading.trans_lt hbound)
  -- dividend and divisors are multiples of one place, but less than it lies between them
  obtain ⟨a, ha⟩ := exists_mul_eq_of_dvd hdvd (show l + k - 23 ≤ j by omega) n
  obtain ⟨b, hb⟩ := exists_eq_mul_of_isValue hx hdividend hle hleading
  have hunit : (0 : ℝ) < 2 ^ (l + k - 23) := by positivity
  have hmissing : ((a : ℝ) - b) * 2 ^ (l + k - 23) = c * (n - q) := by
    rw [sub_mul, ha, ← hb, hdividend]
    ring
  have hless : (b : ℝ) < a := by
    have hprod : 0 < ((a : ℝ) - b) * 2 ^ (l + k - 23) := by
      rw [hmissing]
      exact mul_pos hc (sub_pos.2 hn)
    exact sub_pos.1 (pos_of_mul_pos_left hprod hunit.le)
  have hmore : (a : ℝ) - b < 1 := by
    have hcast : (c : ℝ) < 2 ^ (k + 1 : ℤ) := by exact_mod_cast hlt
    refine lt_of_mul_lt_mul_right ?_ hunit.le
    calc ((a : ℝ) - b) * 2 ^ (l + k - 23) = c * (n - q) := hmissing
      _ ≤ c * 2 ^ (l - 24) := mul_le_mul_of_nonneg_left herror hc.le
      _ < 2 ^ (k + 1 : ℤ) * 2 ^ (l - 24) := mul_lt_mul_of_pos_right hcast (by positivity)
      _ = 1 * 2 ^ (l + k - 23) := by
        rw [← zpow_add₀ two_ne_zero, one_mul]
        congr 1
        ring
  have hless' : b < a := by exact_mod_cast hless
  have hmore' : a < b + 1 := by exact_mod_cast sub_lt_iff_lt_add'.1 hmore
  omega

/-- Rounded, a quotient by a whole number with low bits of zero keeps its whole part. -/
theorem floor_of_isNearest (hx : Binary.IsValue .binary32 x) (hdividend : x = c * q)
    (hle : 2 ^ k ≤ c) (hlt : c < 2 ^ (k + 1)) (hdvd : 2 ^ j ∣ c) (hj : j < k) (hq : 0 ≤ q)
    (hbound : q < 2 ^ (24 + j - k : ℤ)) (h : Binary.IsNearest .binary32 q v) : ⌊v⌋₊ = ⌊q⌋₊ := by
  have hlow := Nat.floor_le hq
  have hhigh := Nat.lt_floor_add_one q
  generalize ⌊q⌋₊ = n at hlow hhigh
  have hsmall : n < 2 ^ 23 := by
    have hpower : (2 : ℝ) ^ (24 + j - k : ℤ) ≤ 2 ^ (23 : ℤ) :=
      zpow_le_zpow_right₀ one_le_two (by omega)
    have hcast : (n : ℝ) < 2 ^ (23 : ℤ) := hlow.trans_lt (hbound.trans_le hpower)
    exact_mod_cast hcast
  rw [← Nat.cast_succ] at hhigh
  have hbelow := h.value_le n (isValue_natCast (by omega)) hlow
  have habove := h.le_value (n + 1 : ℕ) (isValue_natCast (by omega)) hhigh.le
  rw [Nat.floor_eq_iff (n.cast_nonneg.trans hbelow), ← Nat.cast_succ]
  refine ⟨hbelow, lt_of_le_of_ne habove ?_⟩
  rcases le_or_gt q (1 / 2) with hhalf | hhalf
  · have hv := h.le_value _ isValue_half hhalf
    have hn : (0 : ℝ) ≤ n := n.cast_nonneg
    push_cast
    exact fun heq => absurd hv (by linarith)
  · exact ne_of_isNearest hx hdividend hle hlt hdvd hbound h hhalf hhigh

end Floors

/-- A quotient by a whole number is finite and a nearest one. -/
theorem isNearest_div_natCast {x y : Float32} {c : ℕ} (hx : x.isFinite = true)
    (hsign : HasSign .positive (parts x)) (hy : y.isFinite = true) (hc : 0 < c)
    (hvalue : value (parts y) = c) :
    (x / y).isFinite = true ∧ HasSign .positive (parts (x / y)) ∧
      Binary.IsNearest .binary32 (value (parts x) / c) (value (parts (x / y))) := by
  have hone : (1 : ℝ) ≤ c := by exact_mod_cast hc
  have hnonneg := hsign.value_nonneg
  obtain ⟨q, hnearest, ⟨-, hlarge⟩ | ⟨hfinite, hquotient, hq⟩⟩ := isNearest_div hx hsign hy
    (by rw [hvalue]; exact one_pos.trans_le hone)
  · -- no quotient by a whole number is past the dividend
    rw [hvalue] at hnearest
    have hle := hnearest.le_value _ (isValue_parts hx hnonneg) (div_le_self hnonneg hone)
    exact absurd (value_lt_of_isFinite hx) (hlarge.trans hle).not_gt
  · rw [hvalue] at hnearest
    exact ⟨hfinite, hquotient, hq.symm ▸ hnearest⟩

/-- What a finite number that is not negative stands for. -/
theorem exists_singleDatum {x : Float32} (hx : x.isFinite = true)
    (hsign : HasSign .positive (parts x)) :
    ∃ m e, singleDatum x = .finite false m e ∧ m < 2 ^ 24 ∧ -149 ≤ e ∧
      value (parts x) = m * 2 ^ e := by
  have hdatum := singleDatum_eq x
  obtain ⟨s, hzero⟩ | ⟨s, m, e, hm, -, hfinite⟩ := parts_of_isFinite hx
  · rw [hzero] at hsign hdatum ⊢
    obtain rfl : s = .positive := hsign
    refine ⟨0, Format.binary32.minExponent, hdatum, by decide, le_rfl, ?_⟩
    rw [Nat.cast_zero, zero_mul]
    rfl
  · rw [hfinite] at hsign hdatum ⊢
    obtain rfl : s = .positive := hsign
    exact ⟨m, e, hdatum, hm.lt, hm.le, rfl⟩

theorem of_singleDatum {x : Float32} {m : ℕ} {e : ℤ} (h : singleDatum x = .finite false m e) :
    x.isFinite = true ∧ HasSign .positive (parts x) ∧ value (parts x) = m * 2 ^ e := by
  rw [singleDatum_eq] at h
  show (parts x).isFinite = true ∧ _
  generalize parts x = u at h ⊢
  rcases u with s | _ | s | ⟨s, m', e', hm⟩
  · cases h
  · cases h
  · cases s with
    | negative => cases h
    | positive =>
      obtain ⟨-, rfl, -⟩ := Datum.finite.inj h
      refine ⟨rfl, rfl, ?_⟩
      rw [Nat.cast_zero, zero_mul]
      rfl
  · cases s with
    | negative => cases h
    | positive =>
      obtain ⟨-, rfl, rfl⟩ := Datum.finite.inj h
      exact ⟨rfl, rfl, rfl⟩

theorem countOfSingle_eq {v : Float32} (hv : v.isFinite = true)
    (hsign : HasSign .positive (parts v)) :
    countOfSingle v = min ⌊value (parts v)⌋₊ Number.greatestCount32 := by
  obtain ⟨m, e, hdatum, -, -, hvalue⟩ := exists_singleDatum hv hsign
  have hfloor : ((Ratio.ofNat m).scale 2 e).floor = ⌊value (parts v)⌋₊ := by
    rw [hvalue, ← toReal_magnitude]
    exact (Nat.floor_div_eq_div _ _).symm
  unfold countOfSingle Datum.truncate
  rw [hdatum]
  dsimp only
  rw [hfloor, if_neg Bool.false_ne_true]
  omega

/-- The whole part of a quotient is counted exactly, as long as the quotient is not too great. -/
theorem countOfSingle_div {x y : Float32} {c k j : ℕ} (hx : x.isFinite = true)
    (hsign : HasSign .positive (parts x)) (hy : y.isFinite = true) (hvalue : value (parts y) = c)
    (hle : 2 ^ k ≤ c) (hlt : c < 2 ^ (k + 1)) (hdvd : 2 ^ j ∣ c) (hj : j < k)
    (hbound : value (parts x) / c < 2 ^ (24 + j - k : ℤ)) :
    countOfSingle (x / y) = ⌊value (parts x) / c⌋₊ := by
  obtain ⟨hfinite, hquotient, hnearest⟩ :=
    isNearest_div_natCast hx hsign hy ((Nat.two_pow_pos k).trans_le hle) hvalue
  have hc : (c : ℝ) ≠ 0 := Nat.cast_ne_zero.2 ((Nat.two_pow_pos k).trans_le hle).ne'
  rw [countOfSingle_eq hfinite hquotient, floor_of_isNearest (isValue_parts hx hsign.value_nonneg)
    (mul_div_cancel₀ _ hc).symm hle hlt hdvd hj (div_nonneg hsign.value_nonneg c.cast_nonneg) hbound
    hnearest, min_eq_left]
  have hpower : (2 : ℝ) ^ (24 + j - k : ℤ) ≤ 2 ^ (23 : ℤ) :=
    zpow_le_zpow_right₀ one_le_two (by omega)
  have hsmall : ⌊value (parts x) / c⌋₊ < 2 ^ 23 := by
    rw [Nat.floor_lt (div_nonneg hsign.value_nonneg c.cast_nonneg)]
    exact_mod_cast hbound.trans_le hpower
  exact hsmall.le.trans (by decide)

/-- The count of a quotient is off by one and the rounding at most. -/
theorem abs_countOfSingle_div_sub_le {x y : Float32} {c : ℕ} (hx : x.isFinite = true)
    (hsign : HasSign .positive (parts x)) (hy : y.isFinite = true) (hvalue : value (parts y) = c)
    (hc : 0 < c) (hbound : value (parts x) / c < 2 ^ 32) :
    |(countOfSingle (x / y) : ℝ) - ⌊value (parts x) / c⌋₊| ≤ 1 + value (parts x) / c / 2 ^ 24 := by
  obtain ⟨hfinite, hquotient, hnearest⟩ := isNearest_div_natCast hx hsign hy hc hvalue
  have hnonneg : 0 ≤ value (parts x) / c := div_nonneg hsign.value_nonneg c.cast_nonneg
  have hvnonneg := hquotient.value_nonneg
  have hcount := countOfSingle_eq hfinite hquotient
  generalize value (parts (x / y)) = v at hnearest hvnonneg hcount
  generalize value (parts x) / c = q at hbound hnearest hnonneg ⊢
  have hle : v ≤ 2 ^ 32 := by
    have hvalue := @Binary.isValue_of_lt .binary32 1 32 (by decide) (by decide)
    rw [Nat.cast_one, one_mul] at hvalue
    exact_mod_cast hnearest.le_value _ hvalue (by exact_mod_cast hbound.le)
  obtain ⟨hlow, hhigh⟩ : v - 1 ≤ countOfSingle (x / y) ∧ (countOfSingle (x / y) : ℝ) ≤ v := by
    have hfloor := Nat.floor_le hvnonneg
    have hnext := Nat.lt_floor_add_one v
    have hgreatest : (Number.greatestCount32 : ℝ) = 2 ^ 32 - 1 := by
      rw [Number.greatestCount32]
      norm_num
    rw [hcount, Nat.cast_min, hgreatest]
    exact ⟨le_min (by linarith) (by linarith), (min_le_left _ _).trans hfloor⟩
  have hfloor := Nat.floor_le hnonneg
  have hnext := Nat.lt_floor_add_one q
  rw [abs_le]
  -- up to one half the rounded quotient stays there too, and from one half on its error is relative
  rcases le_or_gt q (1 / 2) with hhalf | hhalf
  · have hv := hnearest.le_value _ isValue_half hhalf
    have hcast : (0 : ℝ) ≤ countOfSingle (x / y) := Nat.cast_nonneg _
    constructor <;> linarith
  · have hlog : (2 : ℝ) ^ (Int.log 2 q - 24) ≤ q / 2 ^ 24 := by
      have hleading : (2 : ℝ) ^ Int.log 2 q ≤ q := by
        exact_mod_cast Int.zpow_log_le_self one_lt_two (one_half_pos.trans hhalf)
      rw [zpow_sub₀ two_ne_zero]
      exact div_le_div_of_nonneg_right hleading (by positivity)
    obtain ⟨herror, herror'⟩ := abs_le.1 (abs_sub_le_of_isNearest hnearest hhalf.le)
    constructor <;> linarith

/-! ## Rests -/

theorem isStored_of_isCanonical {m : ℕ} {e : ℤ} (h : Binary.IsCanonical .binary32 m e)
    (he : e ≤ 104) : BinaryFormat.single.IsStored m e := by
  have hle : -149 ≤ e := h.le
  have hlt : m < 2 ^ 24 := h.lt
  refine ⟨hlt, hle, h.full, ?_⟩
  have hplace : (e - -149).toNat ≤ 253 := by omega
  have hfield := Nat.mul_le_mul_right (2 ^ 23) hplace
  show (e - -149).toNat * 2 ^ 23 + m < 255 * 2 ^ 23
  omega

theorem singleDatum_ofBits {bits : ℕ} (h : bits < 2 ^ 32) :
    singleDatum (Float32.ofBits (UInt32.ofNat bits)) = BinaryFormat.single.decode bits := by
  have hparts : parts (Float32.ofBits (UInt32.ofNat bits)) =
      Float.Model.UnpackedFloat.unpack .binary32 (UInt32.ofNat bits).toBitVec :=
    Binary.unpack_pack_unpack (by decide) _
  have hnat : (UInt32.ofNat bits).toBitVec.toNat = bits := Nat.mod_eq_of_lt h
  have hdatum := @Binary.decode_eq .binary32 (UInt32.ofNat bits).toBitVec
  rw [hnat] at hdatum
  rw [singleDatum_eq, hparts, ← hdatum]
  rfl

/-- A ratio with a mantissa and an exponent of its own is stored exactly. -/
theorem singleDatum_encode {r : Ratio} (hden : 0 < r.den) {m : ℕ} {e : ℤ} (hm : m < 2 ^ 24)
    (hle : -149 ≤ e) (hge : e ≤ 104) (hvalue : r.toReal = m * 2 ^ e) :
    ∃ m' e', singleDatum (Float32.ofBits (UInt32.ofNat (BinaryFormat.single.encode false r))) =
      .finite false m' e' ∧ (m' : ℝ) * 2 ^ e' = r.toReal := by
  obtain ⟨m', e', hstored, heq⟩ : ∃ m' e', BinaryFormat.single.IsStored m' e' ∧
      (m' : ℝ) * 2 ^ e' = m * 2 ^ e := by
    rcases m.eq_zero_or_pos with rfl | hpos
    · refine ⟨0, -149, ⟨by decide, le_rfl, .inr rfl, by decide⟩, ?_⟩
      rw [Nat.cast_zero, zero_mul, zero_mul]
    · obtain ⟨m', e', hcanonical, hle', heq⟩ :=
        @Binary.exists_isCanonical .binary32 m e hpos hm hle
      exact ⟨m', e', isStored_of_isCanonical hcanonical (hle'.trans hge), heq⟩
  have hbits : BinaryFormat.single.encode false r =
      BinaryFormat.single.withSign false (BinaryFormat.single.magnitudeBits m' e') := by
    unfold BinaryFormat.encode
    rw [BinaryFormat.encodeMagnitude_of_eq hden hstored (hvalue.trans heq.symm)]
  have hlt :
      BinaryFormat.single.withSign false (BinaryFormat.single.magnitudeBits m' e') < 2 ^ 32 :=
    hstored.finite.trans (by decide)
  refine ⟨m', e', ?_, heq.trans hvalue.symm⟩
  rw [hbits, singleDatum_ofBits hlt]
  exact BinaryFormat.decode_withSign false hstored

/-- What is left of a magnitude has a mantissa and an exponent of its own. -/
theorem exists_rest {m c : ℕ} {e : ℤ} (hm : m < 2 ^ 24) (hle : -149 ≤ e) (hc : 0 < c)
    (hlt : c ≤ 2 ^ 24) {r : Ratio} (hr : r = (Ratio.ofNat m).scale 2 e) :
    ∃ m' e', m' < 2 ^ 24 ∧ -149 ≤ e' ∧ e' ≤ 104 ∧
      (⟨r.num % (c * r.den), r.den⟩ : Ratio).toReal = (m' : ℕ) * 2 ^ (e' : ℤ) := by
  unfold Ratio.toReal
  cases e with
  | ofNat k =>
    obtain rfl : r = ⟨m * 2 ^ k, 1⟩ := hr
    refine ⟨m * 2 ^ k % c, 0, (Nat.mod_lt _ hc).trans_le hlt, by decide, by decide, ?_⟩
    simp
  | negSucc k =>
    obtain rfl : r = ⟨m, 1 * 2 ^ (k + 1)⟩ := hr
    refine ⟨m % (c * (1 * 2 ^ (k + 1))), Int.negSucc k, (Nat.mod_le _ _).trans_lt hm, hle, by omega,
      ?_⟩
    rw [zpow_negSucc, one_mul, ← div_eq_mul_inv]
    push_cast
    rfl

/-- The rest of a division by a whole number is exact. -/
theorem value_remainder {x : Float32} {c : ℕ} (hx : x.isFinite = true)
    (hsign : HasSign .positive (parts x)) (hc : 0 < c) (hlt : c ≤ 2 ^ 24) :
    (Number.remainder x c).isFinite = true ∧ HasSign .positive (parts (Number.remainder x c)) ∧
      value (parts (Number.remainder x c)) = c * Int.fract (value (parts x) / c) := by
  obtain ⟨m, e, hdatum, hm, hle, hvalue⟩ := exists_singleDatum hx hsign
  obtain ⟨r, hr⟩ : ∃ r, r = (Ratio.ofNat m).scale 2 e := ⟨_, rfl⟩
  have hden : 0 < r.den := hr ▸ den_magnitude_pos m e
  have hreal : value (parts x) = r.toReal := by rw [hvalue, hr, toReal_magnitude]
  have hremainder : Number.remainder x c = Float32.ofBits (UInt32.ofNat
      (BinaryFormat.single.encode false ⟨r.num % (c * r.den), r.den⟩)) := by
    unfold Number.remainder
    rw [hdatum, hr]
  -- the rest of a division is a value of the format itself, so nothing is rounded
  obtain ⟨m', e', hm', hle', hge', hrest⟩ := exists_rest hm hle hc hlt hr
  obtain ⟨m'', e'', hencode, heq⟩ := singleDatum_encode (r := ⟨r.num % (c * r.den), r.den⟩) hden hm'
    hle' hge' hrest
  rw [← hremainder] at hencode
  obtain ⟨hfinite, hpositive, hvalue'⟩ := of_singleDatum hencode
  refine ⟨hfinite, hpositive, ?_⟩
  have hfract : Int.fract (r.toReal / c) = (r.num % (c * r.den) : ℕ) / (c * r.den : ℕ) := by
    rw [← Int.fract_div_natCast_eq_div_natCast_mod]
    unfold Ratio.toReal
    rw [div_div, mul_comm (r.den : ℝ), Nat.cast_mul]
  have hc' : (c : ℝ) ≠ 0 := by exact_mod_cast hc.ne'
  rw [hvalue', heq, hreal, hfract]
  unfold Ratio.toReal
  push_cast
  field_simp

end Single

end Toolpath
