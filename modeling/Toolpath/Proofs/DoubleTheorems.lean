import Toolpath.Proofs.DatumTheorems
import Toolpath.Proofs.RatioTheorems

/-!
# Double-precision numbers

What a double-precision number stands for is read off its bits in one way and computed with in
another. The two are one (`Double.doubleDatum_eq`), so the results of the arithmetic are known as
data.

* Ten times a number, and a tenth of it, are near to the exact values
  (`Double.isNear_mul_ten`, `Double.isNear_div_ten`).
* Whole numbers are exact as long as a mantissa has room for them
  (`Double.doubleDatum_doubleOfRatio`).
-/

namespace Toolpath

namespace Double

open Float.Model (Format UnpackedFloat totalExponent)
open Float.Model.UnpackedFloat (Sign Accuracy unpack pack roundWithAccuracy divCore
  accuracyOfFraction)
open Number (BinaryFormat Datum Ratio doubleDatum)
open Binary (isMinus)

/-! ## Data -/

/-- The class of a number with its sign, mantissa and exponent. -/
def parts (x : Float) : UnpackedFloat := x.toModel.unpack

theorem signWeight_double : BinaryFormat.double.signWeight = 2 ^ 63 := rfl

theorem hiddenBit_double : BinaryFormat.double.hiddenBit = 2 ^ 52 := rfl

theorem infinityBits_double : BinaryFormat.double.infinityBits = 2047 * 2 ^ 52 := rfl

theorem minExponent_double : BinaryFormat.double.minExponent = -1074 := rfl

/-- A number stands for what its parts stand for. -/
theorem doubleDatum_eq (x : Float) : doubleDatum x = Binary.datumOf .binary64 (parts x) :=
  @Binary.decode_eq .binary64 x.toModel.toBits.toBitVec

theorem isFinite_eq (x : Float) : x.isFinite = (doubleDatum x).isFinite := by
  rw [doubleDatum_eq, Binary.isFinite_datumOf]
  rfl

/-- The number with the given parts. -/
def ofParts (u : UnpackedFloat) : Float := .ofModel (.pack u)

theorem doubleDatum_ofParts (u : UnpackedFloat) :
    doubleDatum (ofParts u) = Binary.datumOf .binary64 (unpack .binary64 (pack .binary64 u)) :=
  doubleDatum_eq _

/-- Bits that are no number aside, a number has the bits it is made of. -/
theorem doubleDatum_ofBits {bits : ℕ} (h : bits < 2 ^ 64) :
    doubleDatum (Float.ofBits (UInt64.ofNat bits)) = BinaryFormat.double.decode bits := by
  have hparts : parts (Float.ofBits (UInt64.ofNat bits)) =
      unpack .binary64 (UInt64.ofNat bits).toBitVec :=
    Binary.unpack_pack_unpack (by decide) _
  have hnat : (UInt64.ofNat bits).toBitVec.toNat = bits := Nat.mod_eq_of_lt h
  have hdatum := @Binary.decode_eq .binary64 (UInt64.ofNat bits).toBitVec
  rw [hnat] at hdatum
  rw [doubleDatum_eq, hparts, ← hdatum]
  rfl

/-! ## Equality -/

/-- Parts that compare as equal are the same, but for the sign of a zero. -/
theorem eq_or_zero_of_compare {u v : UnpackedFloat} (h : u.compare v = some .eq) :
    u = v ∨ ∃ s t, u = .zero s ∧ v = .zero t := by
  cases u with
  | infinity s =>
    cases v with
    | infinity t => cases s <;> cases t <;> first | exact .inl rfl | cases h
    | notANumber => cases s <;> cases h
    | zero t => cases s <;> cases h
    | finite t m e hm => cases s <;> cases h
  | notANumber => cases v <;> cases h
  | zero s =>
    cases v with
    | infinity t => cases t <;> cases h
    | notANumber => cases h
    | zero t => exact .inr ⟨s, t, rfl, rfl⟩
    | finite t m e hm => cases t <;> cases h
  | finite s m e hm =>
    cases v with
    | infinity t => cases s <;> cases t <;> cases h
    | notANumber => cases s <;> cases h
    | zero t => cases s <;> cases h
    | finite t m' e' hm' =>
      -- values of one sign are compared by exponent, then by mantissa
      have hthen : (compare e e').then (compare m m') = .eq → e = e' ∧ m = m' := by
        intro heq
        rw [Ordering.then_eq_eq] at heq
        exact ⟨compare_eq_iff_eq.1 heq.1, compare_eq_iff_eq.1 heq.2⟩
      cases s <;> cases t
      · obtain ⟨rfl, rfl⟩ := hthen (Ordering.swap_eq_eq.1 (Option.some_inj.1 h))
        exact .inl rfl
      · cases h
      · cases h
      · obtain ⟨rfl, rfl⟩ := hthen (Option.some_inj.1 h)
        exact .inl rfl

/-! ## Rounded results -/

/-- A datum of the given sign that is as near to a magnitude as rounding leaves it; infinity is near
to huge magnitudes only. -/
def IsNear (negative : Bool) (x : ℝ) (d : Datum) : Prop :=
  (d = .infinite negative ∧ 2 ^ 100 ≤ x) ∨ ∃ m e, d = .finite negative m e ∧
    |(m : ℝ) * 2 ^ e - x| ≤ max (x / 2 ^ 52) (2 ^ (-1074 : ℤ))

/-- What rounding comes to is near to what was rounded. -/
theorem isNear_round (s : Sign) {x : ℝ} {m : ℕ} {e : ℤ} (hm : 0 < m)
    (hbits : e ≤ Format.binary64.targetExponent (totalExponent m e)) (a : Accuracy)
    (hle : (m : ℝ) * 2 ^ e ≤ x) (hge : x ≤ (m + 1) * 2 ^ e) :
    IsNear (isMinus s) x (doubleDatum (ofParts (roundWithAccuracy .binary64 s m e a))) := by
  have hx : 0 ≤ x := le_trans (by positivity) hle
  have hunit : (2 : ℝ) ^ Format.binary64.targetExponent (totalExponent m e) ≤
      max (x / 2 ^ 52) (2 ^ (-1074 : ℤ)) := Binary.two_zpow_targetExponent_le hm hle
  rw [doubleDatum_ofParts]
  -- rounded down to zero, or to a mantissa that may still be too large for the format
  rcases Binary.abs_round_sub_le s hm hbits a hle hge with
    ⟨hzero, hsmall⟩ | ⟨m', e', h, hfinite, herror⟩
  · rw [hzero, Binary.unpack_zero]
    refine .inr ⟨0, -1074, rfl, ?_⟩
    rw [Nat.cast_zero, zero_mul, zero_sub, abs_neg, abs_of_nonneg hx]
    exact hsmall.trans hunit
  · rw [hfinite]
    by_cases hfits : e' ≤ (Format.exponentBias .binary64 : ℤ) - (52 : ℕ)
    · rw [Binary.unpack_pack s h hfits]
      exact .inr ⟨m', e', rfl, herror.trans hunit⟩
    · rw [Binary.unpack_pack_large s h (not_le.1 hfits)]
      -- a value far below the greatest number is not off by enough to overflow
      refine .inl ⟨rfl, not_lt.1 fun hsmall => ?_⟩
      have hbias : (Format.exponentBias .binary64 : ℤ) = 1023 := rfl
      rw [hbias] at hfits
      have hlarge : 100 ≤ e' := by omega
      have hfull : 2 ^ 52 ≤ m' := h.full.resolve_right fun hleast => by
        rw [hleast] at hlarge
        exact absurd hlarge (by decide)
      have hvalue : (2 : ℝ) ^ 52 * 2 ^ (100 : ℤ) ≤ m' * 2 ^ e' :=
        mul_le_mul (by exact_mod_cast hfull) (zpow_le_zpow_right₀ one_le_two hlarge)
          (by positivity) (by positivity)
      have herror' := (abs_le.1 (herror.trans hunit)).2
      have hmax : max (x / 2 ^ 52) (2 ^ (-1074 : ℤ)) ≤ (2 : ℝ) ^ 100 := by
        apply max_le
        · exact (div_le_self hx (by norm_num)).trans hsmall.le
        · exact (zpow_le_one_of_nonpos₀ one_le_two (by decide)).trans (by norm_num)
      have hsum : (2 : ℝ) ^ 52 * 2 ^ (100 : ℤ) < 2 ^ 100 + 2 ^ 100 := by linarith
      norm_num at hsum

theorem parts_ten : parts 10.0 = .finite .positive (5 * 2 ^ 50) (-49) (by decide) := by rfl

theorem mul_positive (s : Sign) : s * .positive = s := by cases s <;> rfl

theorem div_positive (s : Sign) : s / .positive = s := by cases s <;> rfl

theorem targetExponent_double (m : ℕ) (e : ℤ) :
    Format.binary64.targetExponent (totalExponent m e) = max ((m.log2 : ℤ) + e - 52) (-1074) :=
  Binary.targetExponent_eq .binary64 m e

theorem zero_mul_finite (s t : Sign) {m : ℕ} {e : ℤ} (hm : 0 < m) :
    (UnpackedFloat.zero s).mul .binary64 (.finite t m e hm) = .zero (s * t) := rfl

theorem finite_mul_finite (s t : Sign) {m m' : ℕ} {e e' : ℤ} (hm : 0 < m) (hm' : 0 < m') :
    (UnpackedFloat.finite s m e hm).mul .binary64 (.finite t m' e' hm') =
      roundWithAccuracy .binary64 (s * t) (m * m') (e + e') .exact := rfl

theorem infinity_mul_finite (s t : Sign) {m : ℕ} {e : ℤ} (hm : 0 < m) :
    (UnpackedFloat.infinity s).mul .binary64 (.finite t m e hm) = .infinity (s * t) := rfl

theorem notANumber_mul (u : UnpackedFloat) :
    UnpackedFloat.notANumber.mul .binary64 u = .notANumber := rfl

theorem infinity_div_finite (s t : Sign) {m : ℕ} {e : ℤ} (hm : 0 < m) :
    (UnpackedFloat.infinity s).div .binary64 (.finite t m e hm) = .infinity (s / t) := rfl

theorem notANumber_div (u : UnpackedFloat) :
    UnpackedFloat.notANumber.div .binary64 u = .notANumber := rfl

/-- Ten times a number is near to ten times its magnitude. -/
theorem isNear_mul_ten {x : Float} {negative : Bool} {m : ℕ} {e : ℤ}
    (h : doubleDatum x = .finite negative m e) :
    IsNear negative (10 * (m * 2 ^ e)) (doubleDatum (x * 10.0)) := by
  have hmul : x * 10.0 = ofParts ((parts x).mul .binary64 (parts 10.0)) := rfl
  rw [doubleDatum_eq] at h
  rw [hmul, parts_ten]
  rcases hparts : parts x with s | _ | s | ⟨s, m', e', hm⟩
  · rw [hparts] at h
    cases h
  · rw [hparts] at h
    cases h
  · rw [hparts] at h
    cases h
    rw [zero_mul_finite, mul_positive, doubleDatum_ofParts, Binary.unpack_zero]
    refine .inr ⟨0, -1074, rfl, ?_⟩
    simp
  · rw [hparts] at h
    cases h
    have hfull : 52 ≤ (m * (5 * 2 ^ 50)).log2 :=
      (Nat.le_log2 (by positivity)).2 (by omega)
    -- the product is exact before it is rounded
    have hexact : (10 : ℝ) * (m * 2 ^ e) = (m * (5 * 2 ^ 50) : ℕ) * 2 ^ (e + -49) := by
      rw [zpow_add₀ two_ne_zero]
      push_cast
      norm_num
      ring
    rw [finite_mul_finite, mul_positive]
    apply isNear_round s (by positivity) _ .exact hexact.ge
    · rw [hexact, add_mul, one_mul]
      exact le_add_of_nonneg_right (by positivity)
    · rw [targetExponent_double]
      omega

/-- Only a finite number has a finite multiple. -/
theorem isFinite_of_mul_ten {x : Float} (h : (doubleDatum (x * 10.0)).isFinite = true) :
    (doubleDatum x).isFinite = true := by
  have hmul : x * 10.0 = ofParts ((parts x).mul .binary64 (parts 10.0)) := rfl
  rw [doubleDatum_eq]
  rw [hmul, parts_ten] at h
  rcases hparts : parts x with s | _ | s | ⟨s, m, e, hm⟩
  · rw [hparts, infinity_mul_finite, doubleDatum_ofParts, Binary.unpack_infinity] at h
    cases h
  · rw [hparts, notANumber_mul, doubleDatum_ofParts, Binary.unpack_notANumber] at h
    cases h
  · rfl
  · rfl

/-- Only a finite number has a finite part. -/
theorem isFinite_of_div_ten {x : Float} (h : (doubleDatum (x / 10.0)).isFinite = true) :
    (doubleDatum x).isFinite = true := by
  have hdiv : x / 10.0 = ofParts ((parts x).div .binary64 (parts 10.0)) := rfl
  rw [doubleDatum_eq]
  rw [hdiv, parts_ten] at h
  rcases hparts : parts x with s | _ | s | ⟨s, m, e, hm⟩
  · rw [hparts, infinity_div_finite, doubleDatum_ofParts, Binary.unpack_infinity] at h
    cases h
  · rw [hparts, notANumber_div, doubleDatum_ofParts, Binary.unpack_notANumber] at h
    cases h
  · rfl
  · rfl

theorem parts_cases (x : Float) :
    parts x = .notANumber ∨ (∃ s, parts x = .infinity s) ∨ (∃ s, parts x = .zero s) ∨
      ∃ s m e, ∃ h : Binary.IsCanonical .binary64 m e, parts x = .finite s m e h.pos := by
  have hcases := @Binary.unpack_cases .binary64 (by decide) x.toModel.toBits.toBitVec
  obtain hnan | hinfinity | hzero | ⟨s, m, e, h, -, hfinite⟩ := hcases
  · exact .inl hnan
  · exact .inr (.inl hinfinity)
  · exact .inr (.inr (.inl hzero))
  · exact .inr (.inr (.inr ⟨s, m, e, h, hfinite⟩))

/-- A mantissa has 53 bits. -/
theorem mantissa_lt {x : Float} {negative : Bool} {m : ℕ} {e : ℤ}
    (h : doubleDatum x = .finite negative m e) : m < 2 ^ 53 := by
  rw [doubleDatum_eq] at h
  obtain hnan | ⟨s, hinfinity⟩ | ⟨s, hzero⟩ | ⟨s, m', e', hm, hfinite⟩ := parts_cases x
  · rw [hnan] at h
    cases h
  · rw [hinfinity] at h
    cases h
  · rw [hzero] at h
    cases h
    exact Nat.two_pow_pos 53
  · rw [hfinite] at h
    cases h
    exact hm.lt

theorem finite_div_finite (s t : Sign) {m m' : ℕ} {e e' : ℤ} (hm : 0 < m) (hm' : 0 < m') :
    (UnpackedFloat.finite s m e hm).div .binary64 (.finite t m' e' hm') =
      roundWithAccuracy .binary64 (s / t) (divCore .binary64 m e m' e').1
        (divCore .binary64 m e m' e').2.1 (divCore .binary64 m e m' e').2.2 := rfl

/-- A tenth of a full mantissa has three bits more, of which one is spare at most. -/
theorem divCore_ten {m : ℕ} {e : ℤ} (hfull : 2 ^ 52 ≤ m) (hlt : m < 2 ^ 53) (he : -1000 ≤ e) :
    divCore .binary64 m e (5 * 2 ^ 50) (-49) = (m * 2 ^ 53 / (5 * 2 ^ 50), e - 4,
      accuracyOfFraction (m * 2 ^ 53 % (5 * 2 ^ 50)) (5 * 2 ^ 50)) := by
  have hlog : m.log2 = 52 := by
    rw [Nat.log2_eq_iff (by omega)]
    omega
  have hten : (5 * 2 ^ 50).log2 = 52 := by decide +kernel
  have htarget : Format.binary64.targetExponent (totalExponent m e -
      totalExponent (5 * 2 ^ 50) (-49)) = e - 4 := by
    unfold totalExponent Format.targetExponent
    rw [hlog, hten, show Format.binary64.minExponent = -1074 from rfl,
      show (Format.binary64.mantissaBits : ℤ) = 53 from rfl]
    omega
  have hshift : (e - -49 - (e - 4)).toNat = 53 := by omega
  unfold divCore
  dsimp only
  rw [htarget, min_eq_right (by omega), hshift, Nat.shiftLeft_eq]

/-- A tenth of a number with a full mantissa is near to a tenth of its magnitude. -/
theorem isNear_div_ten {x : Float} {negative : Bool} {m : ℕ} {e : ℤ}
    (h : doubleDatum x = .finite negative m e) (hfull : 2 ^ 52 ≤ m) (he : -1000 ≤ e) :
    IsNear negative (m * 2 ^ e / 10) (doubleDatum (x / 10.0)) := by
  have hdiv : x / 10.0 = ofParts ((parts x).div .binary64 (parts 10.0)) := rfl
  have hlt := mantissa_lt h
  rw [doubleDatum_eq] at h
  rw [hdiv, parts_ten]
  rcases hparts : parts x with s | _ | s | ⟨s, m', e', hm⟩
  · rw [hparts] at h
    cases h
  · rw [hparts] at h
    cases h
  · rw [hparts] at h
    cases h
    exact absurd hfull (by decide)
  · rw [hparts] at h
    cases h
    rw [finite_div_finite, div_positive, divCore_ten hfull hlt he]
    dsimp only
    -- the mantissa of ten is five with trailing zeros, which cancel
    have hquotient : m * 2 ^ 53 / (5 * 2 ^ 50) = m * 8 / 5 := by
      rw [show 2 ^ 53 = 8 * 2 ^ 50 from rfl, ← mul_assoc,
        Nat.mul_div_mul_right _ _ (Nat.two_pow_pos 50)]
    rw [hquotient]
    have hfull' : 52 ≤ (m * 8 / 5).log2 := (Nat.le_log2 (by omega)).2 (by omega)
    have hexact : (m : ℝ) * 2 ^ e / 10 = m * 8 / 5 * 2 ^ (e - 4) := by
      rw [zpow_sub₀ two_ne_zero]
      norm_num
      ring
    rw [hexact]
    apply isNear_round s (by omega)
    · rw [targetExponent_double]
      omega
    · apply mul_le_mul_of_nonneg_right _ (by positivity)
      rw [le_div_iff₀ (by norm_num)]
      exact_mod_cast Nat.div_mul_le_self (m * 8) 5
    · apply mul_le_mul_of_nonneg_right _ (by positivity)
      rw [div_le_iff₀ (by norm_num)]
      have hceil : m * 8 ≤ (m * 8 / 5 + 1) * 5 := by omega
      exact_mod_cast hceil

/-! ## Whole numbers -/

/-- A pattern below that of infinity, whose exponent field is not zero. -/
theorem decode_withSign (negative : Bool) {field fraction : ℕ} (hpos : 0 < field)
    (hlt : field < 2047) (hfraction : fraction < 2 ^ 52) :
    BinaryFormat.double.decode
        (BinaryFormat.double.withSign negative (field * 2 ^ 52 + fraction)) =
      .finite negative (fraction + 2 ^ 52) (field - 1075) := by
  have hbits : BinaryFormat.double.withSign negative (field * 2 ^ 52 + fraction) =
      (if negative then 2 ^ 63 else 0) + (field * 2 ^ 52 + fraction) := by
    unfold BinaryFormat.withSign
    rw [signWeight_double]
    cases negative <;> simp
  -- the three fields are read off the number one after the other
  have hsign : (BinaryFormat.double.withSign negative (field * 2 ^ 52 + fraction) / 2 ^ 63 % 2 ==
      1) = negative := by
    rw [hbits]
    cases negative
    · rw [if_neg Bool.false_ne_true, beq_eq_false_iff_ne]
      omega
    · rw [if_pos rfl, beq_iff_eq]
      omega
  have hmagnitude : BinaryFormat.double.withSign negative (field * 2 ^ 52 + fraction) % 2 ^ 63 =
      field * 2 ^ 52 + fraction := by
    rw [hbits]
    cases negative
    · rw [if_neg Bool.false_ne_true]
      omega
    · rw [if_pos rfl]
      omega
  have hfield : (field * 2 ^ 52 + fraction) / 2 ^ 52 = field := by omega
  have hlow : (field * 2 ^ 52 + fraction) % 2 ^ 52 = fraction := by omega
  unfold BinaryFormat.decode
  rw [signWeight_double, hiddenBit_double, infinityBits_double, minExponent_double, hsign,
    hmagnitude]
  dsimp only
  rw [hfield, hlow, if_neg (by omega), if_neg (by omega), if_neg hpos.ne']
  congr 1
  omega

/-- The pattern of an infinity is read back with its sign. -/
theorem decode_infinityBits (negative : Bool) :
    BinaryFormat.double.decode (BinaryFormat.double.withSign negative
      BinaryFormat.double.infinityBits) = .infinite negative := by
  cases negative <;> decide +kernel

/-- The mantissa of a whole number, with the leading bit in its place. -/
def wholeMantissa (n : ℕ) : ℕ := ((Ratio.ofNat n).scale 2 (52 - n.log2)).roundHalfEven

/-- Scaled so, the leading bit is that of a full mantissa. -/
theorem scaled_mem {n : ℕ} (hn : 0 < n) :
    (2 : ℝ) ^ 52 ≤ n * 2 ^ (52 - n.log2 : ℤ) ∧ (n : ℝ) * 2 ^ (52 - n.log2 : ℤ) < 2 ^ 53 := by
  have hplace : ((2 : ℕ) : ℝ) ^ n.log2 * 2 ^ (52 - n.log2 : ℤ) = 2 ^ 52 := by
    rw [Nat.cast_ofNat, ← zpow_natCast 2 n.log2, ← zpow_add₀ two_ne_zero, add_sub_cancel]
    norm_num
  have hlow : ((2 ^ n.log2 : ℕ) : ℝ) ≤ n := by exact_mod_cast Nat.log2_self_le hn.ne'
  have hhigh : (n : ℝ) < ((2 ^ (n.log2 + 1) : ℕ) : ℝ) := by
    exact_mod_cast Nat.lt_log2_self (n := n)
  constructor
  · calc (2 : ℝ) ^ 52 = (2 ^ n.log2 : ℕ) * 2 ^ (52 - n.log2 : ℤ) := by rw [Nat.cast_pow, hplace]
      _ ≤ n * 2 ^ (52 - n.log2 : ℤ) := mul_le_mul_of_nonneg_right hlow (by positivity)
  · calc (n : ℝ) * 2 ^ (52 - n.log2 : ℤ)
        < (2 ^ (n.log2 + 1) : ℕ) * 2 ^ (52 - n.log2 : ℤ) :=
          mul_lt_mul_of_pos_right hhigh (by positivity)
      _ = 2 ^ 53 := by
          rw [Nat.cast_pow, pow_succ, mul_right_comm, hplace]
          norm_num

/-- The mantissa of a whole number is off by one half at most. -/
theorem abs_wholeMantissa_sub_le (n : ℕ) :
    |(wholeMantissa n : ℝ) - n * 2 ^ (52 - n.log2 : ℤ)| ≤ 1 / 2 := by
  have herror := Ratio.abs_roundHalfEven_sub_le
    (Ratio.den_scale_pos two_pos (show 0 < (Ratio.ofNat n).den from one_pos) (52 - n.log2))
  rwa [Ratio.toReal_scale two_pos, Ratio.toReal_ofNat, Nat.cast_ofNat] at herror

/-- The mantissa of a whole number has 53 bits, or is carried over to the power of two behind
them. -/
theorem wholeMantissa_mem {n : ℕ} (hn : 0 < n) :
    2 ^ 52 ≤ wholeMantissa n ∧ wholeMantissa n ≤ 2 ^ 53 := by
  obtain ⟨hlow, hhigh⟩ := scaled_mem hn
  have herror := abs_le.1 (abs_wholeMantissa_sub_le n)
  constructor
  · have hlt : ((2 ^ 52 : ℕ) : ℝ) < (wholeMantissa n + 1 : ℕ) := by
      push_cast
      linarith
    exact Nat.lt_succ_iff.1 (by exact_mod_cast hlt)
  · have hlt : (wholeMantissa n : ℝ) < ((2 ^ 53 + 1 : ℕ) : ℝ) := by
      push_cast
      linarith
    exact Nat.lt_succ_iff.1 (by exact_mod_cast hlt)

/-- A whole number with no bits below the mantissa is not rounded. -/
theorem wholeMantissa_of_lt {n : ℕ} (hn : 0 < n) (hlt : n < 2 ^ 53) :
    (wholeMantissa n : ℝ) = n * 2 ^ (52 - n.log2 : ℤ) ∧ wholeMantissa n < 2 ^ 53 := by
  have hlog : n.log2 < 53 := (Nat.log2_lt hn.ne').2 hlt
  have herror := abs_wholeMantissa_sub_le n
  have hhigh := (scaled_mem hn).2
  obtain ⟨k, hk⟩ : ∃ k : ℕ, (52 - n.log2 : ℤ) = k := ⟨52 - n.log2, by omega⟩
  have hwhole : (n : ℝ) * 2 ^ (52 - n.log2 : ℤ) = (n * 2 ^ k : ℕ) := by
    rw [hk, zpow_natCast]
    push_cast
    rfl
  rw [hwhole] at herror hhigh ⊢
  rw [Ratio.eq_of_abs_sub_lt (herror.trans_lt (by norm_num))]
  exact ⟨rfl, by exact_mod_cast hhigh⟩

/-- A whole number is stored by its exponent and mantissa, or as infinite past the greatest finite
number. -/
theorem encodeMagnitude_ofNat {n : ℕ} (hn : 0 < n) :
    BinaryFormat.double.encodeMagnitude (.ofNat n) =
      min BinaryFormat.double.infinityBits ((n.log2 + 1022) * 2 ^ 52 + wholeMantissa n) := by
  have hexponent : max BinaryFormat.double.minExponent
      ((Ratio.ofNat n).log2 - (BinaryFormat.double.fractionBits : ℤ)) = (n.log2 : ℤ) - 52 := by
    rw [Ratio.log2_ofNat hn, minExponent_double,
      show (BinaryFormat.double.fractionBits : ℤ) = 52 from rfl]
    omega
  have hfield : ((n.log2 : ℤ) - 52 - -1074).toNat = n.log2 + 1022 := by omega
  unfold BinaryFormat.encodeMagnitude
  rw [if_neg (show (Ratio.ofNat n).num ≠ 0 from hn.ne')]
  dsimp only
  rw [hexponent, minExponent_double, hiddenBit_double, hfield, neg_sub]
  rfl

/-- The pattern of a whole number has 64 bits. -/
theorem encode_ofNat_lt (negative : Bool) {n : ℕ} (hn : 0 < n) :
    BinaryFormat.double.encode negative (.ofNat n) < 2 ^ 64 := by
  have hsmall : BinaryFormat.double.encodeMagnitude (.ofNat n) ≤ 2047 * 2 ^ 52 := by
    rw [encodeMagnitude_ofNat hn]
    exact min_le_left _ _
  unfold BinaryFormat.encode BinaryFormat.withSign
  rw [signWeight_double]
  split_ifs <;> omega

/-- The number nearest to a whole one is infinite or has its leading bits for a mantissa, also where
rounding has made one bit more of them. -/
theorem doubleDatum_doubleOfRatio_cases (negative : Bool) {n : ℕ} (hn : 0 < n) :
    doubleDatum (Number.doubleOfRatio negative (.ofNat n)) = .infinite negative ∨
      (wholeMantissa n < 2 ^ 53 ∧ doubleDatum (Number.doubleOfRatio negative (.ofNat n)) =
        .finite negative (wholeMantissa n) (n.log2 - 52)) ∨
      wholeMantissa n = 2 ^ 53 ∧ doubleDatum (Number.doubleOfRatio negative (.ofNat n)) =
        .finite negative (2 ^ 52) (n.log2 - 51) := by
  obtain ⟨hfull, hle⟩ := wholeMantissa_mem hn
  unfold Number.doubleOfRatio
  rw [doubleDatum_ofBits (encode_ofNat_lt negative hn)]
  unfold BinaryFormat.encode
  rw [encodeMagnitude_ofNat hn, infinityBits_double]
  by_cases hlarge : 2047 * 2 ^ 52 ≤ (n.log2 + 1022) * 2 ^ 52 + wholeMantissa n
  · rw [min_eq_left hlarge]
    exact .inl (decode_infinityBits negative)
  rw [min_eq_right (not_le.1 hlarge).le]
  right
  -- a mantissa that is rounded up to the next power of two carries into the exponent
  rcases hle.lt_or_eq with hlt | heq
  · left
    have hfields : (n.log2 + 1022) * 2 ^ 52 + wholeMantissa n =
        (n.log2 + 1023) * 2 ^ 52 + (wholeMantissa n - 2 ^ 52) := by omega
    have hexponent : ((n.log2 + 1023 : ℕ) : ℤ) - 1075 = n.log2 - 52 := by omega
    rw [hfields, decode_withSign negative (by omega) (by omega) (by omega),
      Nat.sub_add_cancel hfull, hexponent]
    exact ⟨hlt, rfl⟩
  · right
    have hfields : (n.log2 + 1022) * 2 ^ 52 + wholeMantissa n = (n.log2 + 1024) * 2 ^ 52 + 0 := by
      omega
    have hexponent : ((n.log2 + 1024 : ℕ) : ℤ) - 1075 = n.log2 - 51 := by omega
    rw [hfields, decode_withSign negative (by omega) (by omega) (Nat.two_pow_pos 52), hexponent,
      Nat.zero_add]
    exact ⟨heq, rfl⟩

/-- What has a full mantissa above the unit is past all whole numbers of 53 bits. -/
theorem le_mul_zpow {m : ℕ} {e : ℤ} (hm : 2 ^ 52 ≤ m) (he : 1 ≤ e) :
    (2 : ℝ) ^ 53 ≤ m * 2 ^ e := by
  have hfull : (2 : ℝ) ^ 52 ≤ m := by exact_mod_cast hm
  calc (2 : ℝ) ^ 53 = 2 ^ 52 * 2 ^ (1 : ℤ) := by norm_num
    _ ≤ (m : ℝ) * 2 ^ e :=
      mul_le_mul hfull (zpow_le_zpow_right₀ one_le_two he) (by positivity) (by positivity)

/-- The number nearest to a whole one above zero has a full mantissa. It is that number itself if
the mantissa has room for it, and as great as the least other one if it has not. -/
theorem doubleDatum_doubleOfRatio (negative : Bool) {n : ℕ} (hn : 0 < n) :
    doubleDatum (Number.doubleOfRatio negative (.ofNat n)) = .infinite negative ∨
      ∃ m e, doubleDatum (Number.doubleOfRatio negative (.ofNat n)) = .finite negative m e ∧
        2 ^ 52 ≤ m ∧ -52 ≤ e ∧ (n < 2 ^ 53 → (m : ℝ) * 2 ^ e = n) ∧
          (2 ^ 53 ≤ n → (2 : ℝ) ^ 53 ≤ m * 2 ^ e) := by
  have hlog : 2 ^ 53 ≤ n → 53 ≤ n.log2 := (Nat.le_log2 hn.ne').2
  obtain ⟨hfull, -⟩ := wholeMantissa_mem hn
  obtain hinfinite | ⟨-, hfinite⟩ | ⟨hover, hfinite⟩ := doubleDatum_doubleOfRatio_cases negative hn
  · exact .inl hinfinite
  · refine .inr ⟨_, _, hfinite, hfull, by omega, fun hsmall => ?_, fun hbig => ?_⟩
    · rw [(wholeMantissa_of_lt hn hsmall).1, mul_assoc, ← zpow_add₀ two_ne_zero]
      simp
    · have hlog := hlog hbig
      exact le_mul_zpow hfull (by omega)
  · -- only a mantissa without room for all bits runs over
    have hbig : 2 ^ 53 ≤ n := not_lt.1 fun hsmall => (wholeMantissa_of_lt hn hsmall).2.ne hover
    have hlog := hlog hbig
    exact .inr ⟨_, _, hfinite, le_rfl, by omega, fun hsmall => absurd hbig (not_le.2 hsmall),
      fun _ => le_mul_zpow le_rfl (by omega)⟩

end Double

end Toolpath
