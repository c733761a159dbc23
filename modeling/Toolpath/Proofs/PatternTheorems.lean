import Toolpath.Number.Shortest
import Toolpath.Proofs.SignTheorems
import Toolpath.Proofs.SpellingTheorems

/-!
# Bit patterns

A pattern and what it stands for say the same, as long as there is one pattern of no number: what is
stored is read back (`BinaryFormat.decode_cases`), and what lies around a magnitude is stored as
that magnitude (`BinaryFormat.encodeMagnitude_of_holds`). So a number is what it stands for
(`Number.doubleOfDatum_doubleDatum`), and double precision has room for all of single precision
(`Number.narrow_widen`).
-/

namespace Toolpath

open Float.Model (Format)
open Float.Model.UnpackedFloat (pack unpack packedNaN)

namespace Binary

open Float.Model.UnpackedFloat (Sign packComponents unpackSign unpackExponent unpackMantissa)

variable {spec : Format}

/-- A pattern is made of its fields. -/
theorem packComponents_unpack (bits : BitVec spec.numBits) :
    packComponents spec (Sign.ofBitVec (unpackSign bits)) (unpackExponent bits)
      (unpackMantissa bits) = bits := by
  have hsign : (Sign.ofBitVec (unpackSign bits)).toBitVec = unpackSign bits := by
    generalize unpackSign bits = sign
    revert sign
    decide
  delta packComponents
  rw [hsign]
  ext i hi
  delta unpackSign unpackExponent unpackMantissa
  grind

theorem log2_of_full {k m : ℕ} (hle : 2 ^ k ≤ m) (hlt : m < 2 * 2 ^ k) : m.log2 = k := by
  rw [Nat.log2_eq_iff (by have := Nat.two_pow_pos k; omega), pow_succ]
  omega

/-- Nothing is lost by unpacking a pattern, as long as it has the one form of no number. -/
theorem pack_unpack (hbias : 0 < spec.exponentBias) {bits : BitVec spec.numBits}
    (h : spec.Valid bits) :
    pack spec (unpack spec bits) = bits := by
  have hmin := minExponent_eq spec
  have hmantissa := two_pow_mantissaBits spec
  have hcapacity := two_pow_exponentBits spec
  have hbits := spec.hm
  have hfield := (unpackExponent bits).isLt
  have hfraction := (unpackMantissa bits).isLt
  have hfields := packComponents_unpack bits
  -- an exponent field of ones is kept for infinities, one of zeros for short mantissas
  by_cases hone : unpackExponent bits = -1#_
  · rw [unpack_of_ones bits hone]
    by_cases hnone : unpackMantissa bits = 0#_
    · rw [if_pos hnone]
      rw [hone, hnone] at hfields
      exact hfields
    · rw [if_neg hnone]
      exact (h.eq_packedNaN hone hnone).symm
  by_cases hzero : unpackExponent bits = 0#_
  · by_cases hnone : unpackMantissa bits = 0#_
    · rw [unpack_of_zero bits hzero hnone]
      rw [hzero, hnone] at hfields
      exact hfields
    · obtain ⟨hpos, hunpack⟩ := unpack_of_short bits hzero hnone
      have hlog := (Nat.log2_lt hpos.ne').2 hfraction
      have hone : ((1 : ℕ) : ℤ) = spec.minExponent + spec.exponentBias +
        spec.mantissaBitsWithoutImplicit := by omega
      rw [hunpack, pack_finite _ hpos hone (by omega),
        if_neg (by unfold Format.mantissaBits; omega), BitVec.ofNat_toNat, BitVec.setWidth_eq,
        ← hzero, hfields]
  · have hne : (unpackExponent bits).toNat ≠ 2 * spec.exponentBias + 1 := by
      rw [← toNat_ones]
      exact fun heq => hone (BitVec.eq_of_toNat_eq heq)
    obtain ⟨hpos, hunpack⟩ := unpack_of_full bits hone hzero
    have hlog := log2_of_full (Nat.le_add_right _ _)
      (show 2 ^ spec.mantissaBitsWithoutImplicit + (unpackMantissa bits).toNat < _ by omega)
    have hlow : BitVec.ofNat spec.mantissaBitsWithoutImplicit
        (2 ^ spec.mantissaBitsWithoutImplicit + (unpackMantissa bits).toNat) =
        unpackMantissa bits := by
      apply BitVec.eq_of_toNat_eq
      rw [BitVec.toNat_ofNat, Nat.add_mod_left, Nat.mod_eq_of_lt hfraction]
    have hexponent : ((unpackExponent bits).toNat : ℤ) = (unpackExponent bits).toNat -
        (spec.exponentBias + spec.mantissaBitsWithoutImplicit) + spec.exponentBias +
          spec.mantissaBitsWithoutImplicit := by omega
    rw [hunpack, pack_finite _ hpos hexponent (by omega),
      if_pos (by rw [hlog]; exact add_comm _ _), BitVec.ofNat_toNat, BitVec.setWidth_eq, hlow,
      hfields]

/-- Above the magnitude of infinity there is one form of no number. -/
theorem eq_packedNaN {bits : BitVec spec.numBits} (h : spec.Valid bits)
    (hlarge : (2 ^ spec.exponentBits - 1) * 2 ^ spec.mantissaBitsWithoutImplicit <
      bits.toNat % 2 ^ (spec.mantissaBitsWithoutImplicit + spec.exponentBits)) :
    bits = packedNaN spec := by
  have hcapacity := two_pow_exponentBits spec
  have hsplit : bits.toNat % 2 ^ (spec.mantissaBitsWithoutImplicit + spec.exponentBits) =
      bits.toNat % 2 ^ spec.mantissaBitsWithoutImplicit + 2 ^ spec.mantissaBitsWithoutImplicit *
        (bits.toNat / 2 ^ spec.mantissaBitsWithoutImplicit % 2 ^ spec.exponentBits) := by
    rw [pow_add, Nat.mod_mul]
  rw [hsplit, ← toNat_unpackExponent, ← toNat_unpackMantissa] at hlarge
  have hfield := (unpackExponent bits).isLt
  have hfraction := (unpackMantissa bits).isLt
  have hones : (unpackExponent bits).toNat = 2 ^ spec.exponentBits - 1 := by
    by_contra hne
    have hle : (unpackExponent bits).toNat + 1 ≤ 2 ^ spec.exponentBits - 1 := by omega
    have hmul := Nat.mul_le_mul_left (2 ^ spec.mantissaBitsWithoutImplicit) hle
    rw [mul_add, mul_one, mul_comm _ (2 ^ spec.exponentBits - 1)] at hmul
    omega
  apply h.eq_packedNaN
  · apply BitVec.eq_of_toNat_eq
    rw [toNat_ones, hones]
    omega
  · intro hnone
    rw [hnone, hones, BitVec.toNat_zero, zero_add, mul_comm] at hlarge
    exact hlarge.false

end Binary

namespace Number

variable {f : BinaryFormat} {m : ℕ} {e : ℤ} {bits : ℕ}

namespace BinaryFormat

/-! ## Data and their patterns -/

theorem hiddenBit_pos (f : BinaryFormat) : 0 < f.hiddenBit := Nat.two_pow_pos _

/-- The magnitude field of a mantissa with its exponent. -/
def magnitudeBits (f : BinaryFormat) (m : ℕ) (e : ℤ) : ℕ :=
  (e - f.minExponent).toNat * f.hiddenBit + m

/-- A mantissa and an exponent as a format stores them: with the leading bit, or at the least
exponent. -/
structure IsStored (f : BinaryFormat) (m : ℕ) (e : ℤ) : Prop where
  lt : m < 2 * f.hiddenBit
  le : f.minExponent ≤ e
  full : f.hiddenBit ≤ m ∨ e = f.minExponent
  finite : f.magnitudeBits m e < f.infinityBits

theorem signWeight_eq (f : BinaryFormat) :
    f.signWeight = f.infinityBits + f.hiddenBit := by
  have hpos : 0 < 2 ^ f.exponentBits := Nat.two_pow_pos _
  show 2 ^ (f.fractionBits + f.exponentBits) = (2 ^ f.exponentBits - 1) * 2 ^ f.fractionBits +
    2 ^ f.fractionBits
  rw [← Nat.succ_mul, Nat.succ_eq_add_one, Nat.sub_add_cancel hpos, pow_add, mul_comm]

theorem infinityBits_lt (f : BinaryFormat) : f.infinityBits < f.signWeight := by
  rw [signWeight_eq]
  exact Nat.lt_add_of_pos_right f.hiddenBit_pos

/-- The pattern of a datum has its sign and magnitude for fields. -/
theorem fields_withSign (negative : Bool) {magnitude : ℕ} (h : magnitude < f.signWeight) :
    (f.withSign negative magnitude / f.signWeight % 2 == 1) = negative ∧
      f.withSign negative magnitude % f.signWeight = magnitude := by
  unfold withSign
  cases negative with
  | false => simp [Nat.div_eq_of_lt h, Nat.mod_eq_of_lt h]
  | true =>
    have hpos : 0 < f.signWeight := Nat.zero_lt_of_lt h
    simp [Nat.add_div_left _ hpos, Nat.div_eq_of_lt h, Nat.mod_eq_of_lt h]

theorem withSign_of_lt (h : bits < 2 * f.signWeight) :
    f.withSign (bits / f.signWeight % 2 == 1) (bits % f.signWeight) = bits := by
  have hpos : 0 < f.signWeight := by omega
  have hsplit := Nat.div_add_mod bits f.signWeight
  have hsign : bits / f.signWeight < 2 := (Nat.div_lt_iff_lt_mul hpos).2 h
  unfold withSign
  generalize bits / f.signWeight = sign at hsplit hsign ⊢
  obtain rfl | rfl : sign = 0 ∨ sign = 1 := by omega
  · simpa using hsplit
  · simpa using hsplit

/-- The fields of a magnitude with the leading bit. -/
theorem fields_of_full (h : f.hiddenBit ≤ m) (hlt : m < 2 * f.hiddenBit) :
    f.magnitudeBits m e / f.hiddenBit = (e - f.minExponent).toNat + 1 ∧
      f.magnitudeBits m e % f.hiddenBit = m - f.hiddenBit := by
  have hfields : f.magnitudeBits m e =
      (m - f.hiddenBit) + f.hiddenBit * ((e - f.minExponent).toNat + 1) := by
    unfold magnitudeBits
    rw [mul_add, mul_one, mul_comm f.hiddenBit]
    omega
  have hlow : m - f.hiddenBit < f.hiddenBit := by omega
  rw [hfields, Nat.add_mul_div_left _ _ f.hiddenBit_pos, Nat.div_eq_of_lt hlow, zero_add,
    Nat.add_mul_mod_self_left, Nat.mod_eq_of_lt hlow]
  exact ⟨rfl, rfl⟩

/-- What is stored is read back. -/
theorem decode_withSign (negative : Bool) (h : f.IsStored m e) :
    f.decode (f.withSign negative (f.magnitudeBits m e)) = .finite negative m e := by
  have hle := h.le
  have hfinite := h.finite
  obtain ⟨hsign, hmagnitude⟩ := fields_withSign negative (hfinite.trans f.infinityBits_lt)
  unfold decode
  rw [hsign, hmagnitude]
  dsimp only
  rw [if_neg hfinite.not_gt, if_neg hfinite.ne]
  by_cases hfull : f.hiddenBit ≤ m
  · obtain ⟨hfield, hfraction⟩ := fields_of_full (e := e) hfull h.lt
    rw [hfield, hfraction, if_neg (Nat.succ_ne_zero _), Nat.sub_add_cancel hfull]
    congr 1
    omega
  · have hleast := h.full.resolve_left hfull
    have hbits : f.magnitudeBits m e = m := by
      unfold magnitudeBits
      rw [hleast, sub_self, Int.toNat_zero, zero_mul, zero_add]
    rw [hbits, Nat.div_eq_of_lt (not_le.1 hfull), Nat.mod_eq_of_lt (not_le.1 hfull), if_pos rfl,
      hleast]

theorem decode_infinityBits (f : BinaryFormat) (negative : Bool) :
    f.decode (f.withSign negative f.infinityBits) = .infinite negative := by
  obtain ⟨hsign, hmagnitude⟩ := fields_withSign negative f.infinityBits_lt
  unfold decode
  rw [hsign, hmagnitude]
  dsimp only
  rw [if_neg (lt_irrefl _), if_pos rfl]

/-- What a pattern stands for says all of it, unless it is no number. -/
theorem decode_cases (h : bits < 2 * f.signWeight) :
    (f.decode bits = .nan ∧ f.infinityBits < bits % f.signWeight) ∨
      (∃ negative, f.decode bits = .infinite negative ∧
        bits = f.withSign negative f.infinityBits) ∨
      ∃ negative m e, f.decode bits = .finite negative m e ∧ f.IsStored m e ∧
        bits = f.withSign negative (f.magnitudeBits m e) := by
  have hbits := withSign_of_lt h
  unfold decode
  dsimp only
  generalize (bits / f.signWeight % 2 == 1) = negative at hbits ⊢
  generalize bits % f.signWeight = magnitude at hbits ⊢
  have hsplit := Nat.div_add_mod magnitude f.hiddenBit
  have hlow := Nat.mod_lt magnitude f.hiddenBit_pos
  obtain hlarge | rfl | hfinite := lt_trichotomy f.infinityBits magnitude
  · exact .inl ⟨if_pos hlarge, hlarge⟩
  · rw [if_neg (lt_irrefl _), if_pos rfl]
    exact .inr (.inl ⟨negative, rfl, hbits.symm⟩)
  rw [if_neg hfinite.not_gt, if_neg hfinite.ne]
  refine .inr (.inr ?_)
  -- a mantissa with the field zero is short, every other one has its leading bit restored
  by_cases hfield : magnitude / f.hiddenBit = 0
  · have hwhole : f.magnitudeBits (magnitude % f.hiddenBit) f.minExponent = magnitude := by
      unfold magnitudeBits
      rw [sub_self, Int.toNat_zero, zero_mul, zero_add]
      rwa [hfield, mul_zero, zero_add] at hsplit
    rw [if_pos hfield]
    exact ⟨_, _, _, rfl, ⟨by omega, le_rfl, .inr rfl, by rwa [hwhole]⟩, by rw [hwhole, hbits]⟩
  · obtain ⟨field, hsucc⟩ := Nat.exists_eq_succ_of_ne_zero hfield
    have hwhole : f.magnitudeBits (magnitude % f.hiddenBit + f.hiddenBit)
        (f.minExponent + (magnitude / f.hiddenBit - 1 : ℕ)) = magnitude := by
      unfold magnitudeBits
      rw [add_sub_cancel_left, Int.toNat_natCast]
      rw [hsucc, Nat.mul_succ] at hsplit
      rw [hsucc, Nat.succ_sub_one, mul_comm]
      omega
    rw [if_neg hfield]
    exact ⟨_, _, _, rfl, ⟨by omega, by omega, .inl (Nat.le_add_left _ _), by rwa [hwhole]⟩,
      by rw [hwhole, hbits]⟩

end BinaryFormat

/-! ## Rounding into a pattern -/

/-- The quotient of a division by which a whole number is the nearest one. -/
theorem Ratio.roundHalfEven_eq_of_le {r : Ratio} {n : ℕ} (hden : 0 < r.den)
    (hlow : 2 * (r.den * n) ≤ 2 * r.num + r.den) (hhigh : 2 * r.num ≤ 2 * (r.den * n) + r.den)
    (htie : 2 * (r.den * n) = 2 * r.num + r.den ∨ 2 * r.num = 2 * (r.den * n) + r.den →
      n % 2 = 0) : r.roundHalfEven = n := by
  have hsplit := Nat.div_add_mod r.num r.den
  have hrest := Nat.mod_lt r.num hden
  unfold roundHalfEven
  dsimp only
  generalize r.num / r.den = whole at hsplit ⊢
  generalize r.num % r.den = rest at hsplit hrest ⊢
  have hwhole : whole = n ∨ whole + 1 = n := by
    by_contra hne
    rcases (by omega : n + 1 ≤ whole ∨ whole + 2 ≤ n) with h | h
    · have hmul := Nat.mul_le_mul_left r.den h
      rw [mul_add] at hmul
      omega
    · have hmul := Nat.mul_le_mul_left r.den h
      rw [mul_add] at hmul
      omega
  rcases hwhole with rfl | rfl
  · split_ifs <;> omega
  · rw [mul_add, mul_one] at hlow hhigh htie
    split_ifs <;> omega

/-- The nearest whole number, a tie going to an even one. -/
theorem Ratio.roundHalfEven_eq {r : Ratio} {n : ℕ} (hden : 0 < r.den)
    (hnear : |r.toReal - n| ≤ 1 / 2) (htie : |r.toReal - n| = 1 / 2 → n % 2 = 0) :
    r.roundHalfEven = n := by
  have hden' : (0 : ℝ) < r.den := by exact_mod_cast hden
  have hpos : (0 : ℝ) < 2 * r.den := by positivity
  -- by twice the denominator the comparison becomes one of whole numbers
  have hscaled : |2 * (r.num : ℝ) - 2 * (r.den * n)| = |r.toReal - n| * (2 * r.den) := by
    rw [← abs_of_pos hpos, ← abs_mul]
    congr 1
    unfold toReal
    field_simp
  have hnear' : |2 * (r.num : ℝ) - 2 * (r.den * n)| ≤ r.den := by
    rw [hscaled]
    linarith [mul_le_mul_of_nonneg_right hnear hpos.le]
  obtain ⟨hlow, hhigh⟩ := abs_le.1 hnear'
  apply roundHalfEven_eq_of_le hden
  · exact_mod_cast (by linarith : 2 * ((r.den : ℝ) * n) ≤ 2 * r.num + r.den)
  · exact_mod_cast (by linarith : 2 * (r.num : ℝ) ≤ 2 * (r.den * n) + r.den)
  · intro heq
    have htie' : |2 * (r.num : ℝ) - 2 * (r.den * n)| = r.den := by
      rcases heq with heq | heq
      · have hcast : 2 * ((r.den : ℝ) * n) = 2 * r.num + r.den := by exact_mod_cast heq
        rw [hcast, sub_add_cancel_left, abs_neg, abs_of_pos hden']
      · have hcast : 2 * (r.num : ℝ) = 2 * (r.den * n) + r.den := by exact_mod_cast heq
        rw [hcast, add_sub_cancel_left, abs_of_pos hden']
    rw [hscaled] at htie'
    apply htie
    field_simp at htie'
    linarith

/-- What is rounded from the middle between two whole numbers is even. -/
theorem Ratio.roundHalfEven_even {r : Ratio} (hden : 0 < r.den)
    (h : |r.toReal - r.roundHalfEven| = 1 / 2) : r.roundHalfEven % 2 = 0 := by
  -- else the number on the other side of the middle would be even, and the result
  by_contra hodd
  generalize hn : r.roundHalfEven = n at h hodd
  have hother : ∀ k : ℕ, k % 2 = 0 → |r.toReal - k| ≤ 1 / 2 → False := by
    intro k hk hnear
    rw [roundHalfEven_eq hden hnear fun _ => hk] at hn
    omega
  rcases (abs_eq one_half_pos.le).1 h with habove | hbelow
  · apply hother (n + 1) (by omega)
    push_cast
    rw [abs_le]
    constructor <;> linarith
  · obtain ⟨k, rfl⟩ : ∃ k, n = k + 1 := ⟨n - 1, by omega⟩
    apply hother k (by omega)
    push_cast at hbelow
    rw [abs_le]
    constructor <;> linarith

/-- Whether a magnitude lies in an interval of the given unit. -/
def RoundingInterval.Holds (i : RoundingInterval) (unit x : ℝ) : Prop :=
  if i.inclusive then i.lower * unit ≤ x ∧ x ≤ i.upper * unit
  else i.lower * unit < x ∧ x < i.upper * unit

namespace BinaryFormat

/-- The ends of the interval around a magnitude, in units of a quarter of the last place. -/
theorem ends_ofMantissa (f : BinaryFormat) (hm : 0 < m) (e : ℤ) :
    4 * (m : ℝ) - 2 ≤ (RoundingInterval.ofMantissa f m e).lower ∧
      ((RoundingInterval.ofMantissa f m e).upper : ℝ) = 4 * m + 2 := by
  have hcast : ((4 * m - 2 : ℕ) : ℝ) = 4 * m - 2 := by
    rw [Nat.cast_sub (by omega)]
    push_cast
    rfl
  have hle : 4 * m - 2 ≤ (RoundingInterval.ofMantissa f m e).lower := by
    unfold RoundingInterval.ofMantissa
    dsimp only
    split_ifs <;> omega
  refine ⟨by rw [← hcast]; exact_mod_cast hle, ?_⟩
  unfold RoundingInterval.ofMantissa
  push_cast
  rfl

theorem two_zpow_eq_quarters (e : ℤ) : (2 : ℝ) ^ e = 4 * 2 ^ (e - 2) := by
  rw [zpow_sub₀ two_ne_zero]
  norm_num
  ring

/-- What lies in the interval around a magnitude is half a unit of the last place away at most, and
no tie unless the mantissa is even. -/
theorem abs_sub_le_of_holds {x : ℝ} (hm : 0 < m)
    (h : (RoundingInterval.ofMantissa f m e).Holds (2 ^ (e - 2)) x) :
    |x * 2 ^ (-e) - m| ≤ 1 / 2 ∧ (|x * 2 ^ (-e) - m| = 1 / 2 → m % 2 = 0) := by
  obtain ⟨hlower, hupper⟩ := ends_ofMantissa f hm e
  have hunit : (0 : ℝ) < 2 ^ (e - 2) := by positivity
  have hscale : x * 2 ^ (-e) - m = (x - 4 * m * 2 ^ (e - 2)) / (4 * 2 ^ (e - 2)) := by
    have hquarter := (two_zpow_eq_quarters e).symm
    rw [sub_div, hquarter, zpow_neg, ← div_eq_mul_inv, mul_right_comm, hquarter,
      mul_div_cancel_left₀ _ (by positivity)]
  have hlow := mul_le_mul_of_nonneg_right hlower hunit.le
  rw [hscale, abs_div, abs_of_pos (by positivity : (0 : ℝ) < 4 * 2 ^ (e - 2)), div_le_iff₀
    (by positivity), div_eq_iff (by positivity)]
  unfold RoundingInterval.Holds at h
  rw [hupper] at h
  split_ifs at h with heven
  · refine ⟨?_, fun _ => beq_iff_eq.1 heven⟩
    rw [abs_le]
    constructor <;> linarith
  · have hstrict : |x - 4 * m * 2 ^ (e - 2)| < 1 / 2 * (4 * 2 ^ (e - 2)) := by
      rw [abs_lt]
      constructor <;> linarith
    exact ⟨hstrict.le, fun htie => absurd htie hstrict.ne⟩

/-- Of a magnitude with the leading bit alone the interval reaches half as far down. -/
theorem le_of_holds {x : ℝ} (hleast : f.minExponent < e)
    (h : (RoundingInterval.ofMantissa f f.hiddenBit e).Holds (2 ^ (e - 2)) x) :
    4 * f.hiddenBit * 2 ^ (e - 2) - 2 ^ (e - 2) ≤ x := by
  have hpos := f.hiddenBit_pos
  have hlower : ((RoundingInterval.ofMantissa f f.hiddenBit e).lower : ℝ) =
      4 * f.hiddenBit - 1 := by
    have hle : 1 ≤ 4 * f.hiddenBit := by omega
    unfold RoundingInterval.ofMantissa
    dsimp only
    rw [if_pos ⟨rfl, hleast⟩, Nat.cast_sub hle]
    push_cast
    rfl
  unfold RoundingInterval.Holds at h
  rw [hlower] at h
  split_ifs at h with heven
  · linarith
  · linarith

theorem cast_hiddenBit (f : BinaryFormat) (e : ℤ) :
    (f.hiddenBit : ℝ) * 2 ^ e = ((2 : ℕ) : ℝ) ^ (f.fractionBits + e) := by
  rw [Nat.cast_ofNat, zpow_add₀ two_ne_zero, zpow_natCast]
  congr 1
  exact_mod_cast rfl

/-- The magnitude field of a ratio is that of the number nearest to it at the exponent of its
leading bit, or at the least exponent. -/
theorem encodeMagnitude_of_near {r : Ratio} {k : ℤ} {n : ℕ} (hnum : 0 < r.num) (hden : 0 < r.den)
    (hexponent : max f.minExponent (Int.log 2 r.toReal - f.fractionBits) = k)
    (hnear : |r.toReal * 2 ^ (-k) - n| ≤ 1 / 2)
    (htie : |r.toReal * 2 ^ (-k) - n| = 1 / 2 → n % 2 = 0) :
    f.encodeMagnitude r = min f.infinityBits (f.magnitudeBits n k) := by
  have hscale : (r.scale 2 (-k)).toReal = r.toReal * 2 ^ (-k) := by
    rw [Ratio.toReal_scale two_pos, Nat.cast_ofNat]
  have hround : (r.scale 2 (-k)).roundHalfEven = n :=
    Ratio.roundHalfEven_eq (Ratio.den_scale_pos two_pos hden _) (by rwa [hscale]) (by rwa [hscale])
  unfold encodeMagnitude magnitudeBits
  rw [if_neg hnum.ne']
  dsimp only
  rw [Ratio.log2_eq hnum hden, hexponent, hround]

/-- Below a power of two the mantissa gains a bit, and rounding takes it away again. -/
theorem encodeMagnitude_of_holds_hiddenBit {r : Ratio} (hnum : 0 < r.num) (hden : 0 < r.den)
    (hleast : f.minExponent < e)
    (h : (RoundingInterval.ofMantissa f f.hiddenBit e).Holds (2 ^ (e - 2)) r.toReal)
    (hless : r.toReal < f.hiddenBit * 2 ^ e) :
    f.encodeMagnitude r = min f.infinityBits (f.magnitudeBits f.hiddenBit e) := by
  have hreach := le_of_holds hleast h
  have hone : (1 : ℝ) ≤ f.hiddenBit := by exact_mod_cast f.hiddenBit_pos
  have hunit : (0 : ℝ) < 2 ^ (e - 2) := by positivity
  have hhalf : (2 : ℝ) ^ (e - 1) = 2 * 2 ^ (e - 2) := by
    rw [← zpow_one_add₀ two_ne_zero]
    congr 1
    ring
  have hless' : r.toReal < 4 * f.hiddenBit * 2 ^ (e - 2) := by
    rw [two_zpow_eq_quarters] at hless
    linarith
  have hnear : |r.toReal * 2 ^ (-(e - 1)) - (2 * f.hiddenBit : ℕ)| ≤ 1 / 2 := by
    have hsub : r.toReal * 2 ^ (-(e - 1)) - (2 * f.hiddenBit : ℕ) =
        (r.toReal - 4 * f.hiddenBit * 2 ^ (e - 2)) / (2 * 2 ^ (e - 2)) := by
      rw [zpow_neg, hhalf]
      push_cast
      field_simp
      ring
    rw [hsub, abs_div, abs_of_pos (by positivity : (0 : ℝ) < 2 * 2 ^ (e - 2)),
      div_le_iff₀ (by positivity), abs_le]
    constructor <;> linarith
  -- just below a power of two the exponent is one less and the mantissa rounds up to twice the
  -- hidden bit
  have hexponent : max f.minExponent (Int.log 2 r.toReal - f.fractionBits) = e - 1 := by
    have habove : ((2 : ℕ) : ℝ) ^ (f.fractionBits + (e - 1)) ≤ r.toReal := by
      rw [← cast_hiddenBit, hhalf]
      nlinarith
    have hpos : 0 < r.toReal := lt_of_lt_of_le (by positivity) habove
    rw [cast_hiddenBit] at hless
    have hlog := (Int.zpow_le_iff_le_log one_lt_two hpos).1 habove
    have hlog' := (Int.lt_zpow_iff_log_lt one_lt_two hpos).1 hless
    omega
  have hcarry : f.magnitudeBits (2 * f.hiddenBit) (e - 1) = f.magnitudeBits f.hiddenBit e := by
    have hplace : (e - f.minExponent).toNat = (e - 1 - f.minExponent).toNat + 1 := by omega
    unfold magnitudeBits
    rw [hplace, add_mul]
    ring
  rw [encodeMagnitude_of_near hnum hden hexponent hnear fun _ => Nat.mul_mod_right 2 _, hcarry]

/-- A magnitude is nearest to that around which it lies. -/
theorem encodeMagnitude_of_holds {r : Ratio} (hden : 0 < r.den) (hm : 0 < m)
    (hstored : f.IsStored m e)
    (h : (RoundingInterval.ofMantissa f m e).Holds (2 ^ (e - 2)) r.toReal) :
    f.encodeMagnitude r = f.magnitudeBits m e := by
  obtain ⟨hnear, htie⟩ := abs_sub_le_of_holds hm h
  obtain ⟨hlow, hhigh⟩ := abs_le.1 hnear
  have hback : r.toReal = r.toReal * 2 ^ (-e) * 2 ^ e := by
    rw [zpow_neg, inv_mul_cancel_right₀ (by positivity)]
  have hunit : (0 : ℝ) < 2 ^ e := by positivity
  have hpos : 0 < r.toReal := by
    have hm' : (1 : ℝ) ≤ m := by exact_mod_cast hm
    rw [hback]
    exact mul_pos (by linarith) hunit
  have hnum := Ratio.num_pos_of_toReal_pos hpos
  rw [← min_eq_right hstored.finite.le]
  by_cases hfull : (f.hiddenBit : ℝ) * 2 ^ e ≤ r.toReal ∨ e = f.minExponent
  · -- the leading bit lies below the next power of two
    have hbelow : r.toReal < ((2 : ℕ) : ℝ) ^ (f.fractionBits + e + 1) := by
      have hlt : (m : ℝ) + 1 ≤ 2 * f.hiddenBit := by exact_mod_cast hstored.lt
      have hdouble : ((2 : ℕ) : ℝ) ^ (f.fractionBits + e + 1) = 2 * f.hiddenBit * 2 ^ e := by
        rw [zpow_add_one₀ (by norm_num), ← cast_hiddenBit, Nat.cast_ofNat]
        ring
      rw [hdouble, hback]
      exact mul_lt_mul_of_pos_right (by linarith) hunit
    have hlog := (Int.lt_zpow_iff_log_lt one_lt_two hpos).1 hbelow
    have hexponent : max f.minExponent (Int.log 2 r.toReal - f.fractionBits) = e := by
      have hle := hstored.le
      rcases hfull with hfull | hleast
      · rw [cast_hiddenBit] at hfull
        have hlog' := (Int.zpow_le_iff_le_log one_lt_two hpos).1 hfull
        omega
      · omega
    exact encodeMagnitude_of_near hnum hden hexponent hnear htie
  · rw [not_or, not_le] at hfull
    obtain ⟨hless, hleast⟩ := hfull
    have hleast : f.minExponent < e := lt_of_le_of_ne hstored.le (Ne.symm hleast)
    obtain rfl : m = f.hiddenBit := by
      apply le_antisymm _ (hstored.full.resolve_right hleast.ne')
      have hlt := hless
      rw [hback] at hlt
      have hlt' : (m : ℝ) < (f.hiddenBit + 1 : ℕ) := by
        have := lt_of_mul_lt_mul_right hlt hunit.le
        push_cast
        linarith
      exact Nat.lt_succ_iff.1 (by exact_mod_cast hlt')
    exact encodeMagnitude_of_holds_hiddenBit hnum hden hleast h hless

/-- A magnitude lies in the interval around it. -/
theorem holds_self (f : BinaryFormat) (hm : 0 < m) (e : ℤ) :
    (RoundingInterval.ofMantissa f m e).Holds (2 ^ (e - 2)) (m * 2 ^ e) := by
  have hunit : (0 : ℝ) < 2 ^ (e - 2) := by positivity
  have hquarter : (m : ℝ) * 2 ^ e = 4 * m * 2 ^ (e - 2) := by
    rw [two_zpow_eq_quarters]
    ring
  have hlower : ((RoundingInterval.ofMantissa f m e).lower : ℝ) < 4 * m := by
    have hlt : (RoundingInterval.ofMantissa f m e).lower < 4 * m := by
      unfold RoundingInterval.ofMantissa
      dsimp only
      split_ifs <;> omega
    exact_mod_cast hlt
  have hlow := mul_lt_mul_of_pos_right hlower hunit
  have hhigh : 4 * (m : ℝ) * 2 ^ (e - 2) < (4 * m + 2) * 2 ^ (e - 2) :=
    mul_lt_mul_of_pos_right (by linarith) hunit
  unfold RoundingInterval.Holds
  rw [(ends_ofMantissa f hm e).2, hquarter]
  split_ifs
  · exact ⟨hlow.le, hhigh.le⟩
  · exact ⟨hlow, hhigh⟩

/-- A magnitude that is stored is not rounded. -/
theorem encodeMagnitude_of_eq {r : Ratio} (hden : 0 < r.den) (hstored : f.IsStored m e)
    (h : r.toReal = m * 2 ^ e) : f.encodeMagnitude r = f.magnitudeBits m e := by
  rcases m.eq_zero_or_pos with rfl | hm
  · have hnum : r.num = 0 := by
      have hden' : (r.den : ℝ) ≠ 0 := by exact_mod_cast hden.ne'
      rw [Nat.cast_zero, zero_mul, Ratio.toReal, div_eq_zero_iff, or_iff_left hden'] at h
      exact_mod_cast h
    have hleast := hstored.full.resolve_left f.hiddenBit_pos.not_ge
    unfold encodeMagnitude magnitudeBits
    rw [if_pos hnum, hleast, sub_self, Int.toNat_zero, zero_mul]
  · apply encodeMagnitude_of_holds hden hm hstored
    rw [h]
    exact holds_self f hm e

/-- What a pattern stands for is stored as this pattern, unless it is no number. -/
theorem encodeDatum_decode (h : bits < 2 * f.signWeight) (hnumber : f.decode bits ≠ .nan) :
    f.encodeDatum (f.decode bits) = bits := by
  obtain ⟨hnan, -⟩ | ⟨negative, hinfinite, hbits⟩ | ⟨negative, m, e, hfinite, hstored, hbits⟩ :=
    decode_cases h
  · exact absurd hnan hnumber
  · rw [hinfinite]
    exact hbits.symm
  · have hden : 0 < ((Ratio.ofNat m).scale 2 e).den := Ratio.den_scale_pos two_pos one_pos e
    have hvalue : ((Ratio.ofNat m).scale 2 e).toReal = m * 2 ^ e := by
      rw [Ratio.toReal_scale two_pos, Ratio.toReal_ofNat, Nat.cast_ofNat]
    rw [hfinite]
    show f.withSign negative (f.encodeMagnitude _) = bits
    rw [encodeMagnitude_of_eq hden hstored hvalue, hbits]

theorem encodeDatum_lt (f : BinaryFormat) (d : Datum) : f.encodeDatum d < 2 * f.signWeight := by
  have hinfinity := f.infinityBits_lt
  have hsign : ∀ {negative magnitude}, magnitude ≤ f.infinityBits →
      f.withSign negative magnitude < 2 * f.signWeight := by
    intro negative magnitude hle
    unfold withSign
    split_ifs <;> omega
  cases d with
  | nan =>
    have hquiet : 2 ^ (f.fractionBits - 1) ≤ f.hiddenBit :=
      Nat.pow_le_pow_right two_pos (Nat.sub_le _ _)
    have hweight := f.signWeight_eq
    show f.infinityBits + 2 ^ (f.fractionBits - 1) < _
    omega
  | infinite negative => exact hsign le_rfl
  | finite negative m e =>
    apply hsign
    unfold encodeMagnitude
    split_ifs
    · exact Nat.zero_le _
    · exact min_le_left _ _

/-- A magnitude of single precision is one of double precision, with a mantissa of its own. -/
theorem IsStored.widen (h : single.IsStored m e) :
    ∃ m' e', double.IsStored m' e' ∧ (m' : ℝ) * 2 ^ e' = m * 2 ^ e := by
  rcases m.eq_zero_or_pos with rfl | hm
  · refine ⟨0, -1074, ⟨by decide, le_rfl, .inr rfl, by decide⟩, ?_⟩
    rw [Nat.cast_zero, zero_mul, zero_mul]
  obtain ⟨hlt, hle, -, hfinite⟩ := h
  unfold magnitudeBits at hfinite
  rw [show single.minExponent = -149 from rfl] at hle hfinite
  rw [show single.hiddenBit = 2 ^ 23 from rfl] at hlt hfinite
  rw [show single.infinityBits = 255 * 2 ^ 23 from rfl] at hfinite
  have hlog : m.log2 < 24 := (Nat.log2_lt hm.ne').2 (by omega)
  -- the mantissa is shifted until it fills the wider one
  obtain ⟨k, hk⟩ : ∃ k : ℕ, m.log2 + k = 52 := ⟨52 - m.log2, by omega⟩
  have hlow : 2 ^ 52 ≤ m * 2 ^ k := by
    rw [← hk, pow_add]
    exact Nat.mul_le_mul_right _ (Nat.log2_self_le hm.ne')
  have hhigh : m * 2 ^ k < 2 ^ 53 := by
    rw [show 53 = m.log2 + 1 + k by omega, pow_add]
    exact Nat.mul_lt_mul_of_pos_right Nat.lt_log2_self (Nat.two_pow_pos k)
  refine ⟨m * 2 ^ k, e - k, ⟨hhigh, ?_, .inl hlow, ?_⟩, ?_⟩
  · rw [Double.minExponent_double]
    omega
  · have hplace : (e - k - -1074).toNat ≤ 1179 := by omega
    have hfield := Nat.mul_le_mul_right (2 ^ 52) hplace
    unfold magnitudeBits
    rw [Double.minExponent_double, Double.hiddenBit_double, Double.infinityBits_double]
    calc (e - k - -1074).toNat * 2 ^ 52 + m * 2 ^ k
        ≤ 1179 * 2 ^ 52 + m * 2 ^ k := Nat.add_le_add_right hfield _
      _ < 1179 * 2 ^ 52 + 2 ^ 53 := Nat.add_lt_add_left hhigh _
      _ ≤ 2047 * 2 ^ 52 := by decide
  · rw [zpow_sub₀ two_ne_zero, zpow_natCast]
    push_cast
    field_simp

end BinaryFormat

end Number

/-! ## Machine numbers -/

namespace Double

/-- A number is what its bits stand for. -/
theorem ofBits_toBits (x : Float) : Float.ofBits x.toBits = x := by
  obtain ⟨⟨⟨bits⟩, hvalid⟩⟩ := x
  have hbits := Binary.pack_unpack (by decide) hvalid
  show Float.ofModel ⟨⟨pack .binary64 (unpack .binary64 bits)⟩, _⟩ = _
  congr

end Double

namespace Single

open Number (singleDatum)

/-- A number is what its bits stand for. -/
theorem ofBits_toBits (x : Float32) : Float32.ofBits x.toBits = x := by
  obtain ⟨⟨⟨bits⟩, hvalid⟩⟩ := x
  have hbits := Binary.pack_unpack (by decide) hvalid
  show Float32.ofModel ⟨⟨pack .binary32 (unpack .binary32 bits)⟩, _⟩ = _
  congr

theorem isFinite_eq (x : Float32) : x.isFinite = (singleDatum x).isFinite := by
  rw [singleDatum_eq, Binary.isFinite_datumOf]
  rfl

end Single

namespace Number

open BinaryFormat (double single)

/-- What a pattern stands for is stored as this pattern, as long as it has the one form of no
number. -/
theorem encodeDatum_decode_of_valid {spec : Format} {f : BinaryFormat}
    (hfraction : f.fractionBits = spec.mantissaBitsWithoutImplicit)
    (hexponent : f.exponentBits = spec.exponentBits)
    (hquiet : f.nanBits = (packedNaN spec).toNat) {bits : BitVec spec.numBits}
    (h : spec.Valid bits) : f.encodeDatum (f.decode bits.toNat) = bits.toNat := by
  have hinfinity : f.infinityBits =
      (2 ^ spec.exponentBits - 1) * 2 ^ spec.mantissaBitsWithoutImplicit := by
    rw [← hfraction, ← hexponent]
    rfl
  have hweight : f.signWeight = 2 ^ (spec.mantissaBitsWithoutImplicit + spec.exponentBits) := by
    rw [← hfraction, ← hexponent]
    rfl
  have hlt : bits.toNat < 2 * f.signWeight := by
    have hwidth : 2 ^ spec.numBits = 2 * f.signWeight := by
      rw [hweight, add_comm spec.mantissaBitsWithoutImplicit, ← pow_succ', ← Nat.add_comm 1,
        ← add_assoc]
    exact bits.isLt.trans_eq hwidth
  -- only what is no number loses its pattern, and of those there is one
  by_cases hnan : f.decode bits.toNat = .nan
  · obtain ⟨-, hlarge⟩ | ⟨_, hinfinite, -⟩ | ⟨_, _, _, hfinite, -⟩ :=
      BinaryFormat.decode_cases hlt
    · rw [hinfinity, hweight] at hlarge
      rw [hnan, Binary.eq_packedNaN h hlarge]
      exact hquiet
    · exact absurd (hinfinite.symm.trans hnan) Datum.noConfusion
    · exact absurd (hfinite.symm.trans hnan) Datum.noConfusion
  · exact BinaryFormat.encodeDatum_decode hlt hnan

/-- A single-precision number is what it stands for. -/
theorem singleOfDatum_singleDatum (x : Float32) : singleOfDatum (singleDatum x) = x := by
  have hbits : single.encodeDatum (singleDatum x) = x.toBits.toNat :=
    encodeDatum_decode_of_valid rfl rfl rfl x.toModel.valid
  unfold singleOfDatum
  rw [hbits, UInt32.ofNat_toNat, Single.ofBits_toBits]

/-- A double-precision number is what it stands for. -/
theorem doubleOfDatum_doubleDatum (x : Float) : doubleOfDatum (doubleDatum x) = x := by
  have hbits : double.encodeDatum (doubleDatum x) = x.toBits.toNat :=
    encodeDatum_decode_of_valid rfl rfl rfl x.toModel.valid
  unfold doubleOfDatum
  rw [hbits, UInt64.ofNat_toNat, Double.ofBits_toBits]

theorem doubleDatum_doubleOfDatum (d : Datum) :
    doubleDatum (doubleOfDatum d) = double.decode (double.encodeDatum d) :=
  Double.doubleDatum_ofBits (BinaryFormat.encodeDatum_lt _ _)

/-- Double precision has room for all of single precision. -/
theorem narrow_widen (x : Float32) : narrow (widen x) = x := by
  have hlt : x.toBits.toNat < 2 * single.signWeight := x.toBits.toNat_lt
  unfold narrow widen
  rw [doubleDatum_doubleOfDatum]
  obtain ⟨hnan, -⟩ | ⟨negative, hinfinite, -⟩ | ⟨negative, m, e, hfinite, hstored, -⟩ :=
    BinaryFormat.decode_cases hlt
  · have hquiet : double.decode (double.encodeDatum .nan) = .nan := by decide +kernel
    rw [show singleDatum x = .nan from hnan, hquiet, ← hnan]
    exact singleOfDatum_singleDatum x
  · have hdouble : double.decode (double.encodeDatum (.infinite negative)) = .infinite negative :=
      double.decode_infinityBits negative
    rw [show singleDatum x = .infinite negative from hinfinite, hdouble, ← hinfinite]
    exact singleOfDatum_singleDatum x
  · have hvalue : ∀ m e, ((Ratio.ofNat m).scale 2 e).toReal = m * 2 ^ e := fun m e => by
      rw [Ratio.toReal_scale two_pos, Ratio.toReal_ofNat, Nat.cast_ofNat]
    have hden : ∀ m e, 0 < ((Ratio.ofNat m).scale 2 e).den := fun m e =>
      Ratio.den_scale_pos two_pos one_pos e
    -- the double has another mantissa and exponent, but the same value
    obtain ⟨m', e', hstored', heq⟩ := hstored.widen
    have hdouble : double.decode (double.encodeDatum (.finite negative m e)) =
        .finite negative m' e' := by
      rw [← BinaryFormat.decode_withSign negative hstored', ← BinaryFormat.encodeMagnitude_of_eq
        (hden m e) hstored' ((hvalue m e).trans heq.symm)]
      rfl
    have hsingle : single.encodeDatum (.finite negative m' e') =
        single.encodeDatum (.finite negative m e) := by
      show single.withSign negative (single.encodeMagnitude _) =
        single.withSign negative (single.encodeMagnitude _)
      rw [BinaryFormat.encodeMagnitude_of_eq (hden m' e') hstored ((hvalue m' e').trans heq),
        BinaryFormat.encodeMagnitude_of_eq (hden m e) hstored (hvalue m e)]
    have hdatum : singleDatum x = .finite negative m e := hfinite
    rw [hdatum, hdouble]
    conv_rhs => rw [← singleOfDatum_singleDatum x, hdatum]
    exact congrArg (fun bits => Float32.ofBits (UInt32.ofNat bits)) hsingle

end Number

end Toolpath
