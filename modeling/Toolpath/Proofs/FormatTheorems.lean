import Mathlib.Algebra.Order.Field.Power
import Mathlib.Data.Real.Basic
import Mathlib.Tactic.Linarith
import Mathlib.Tactic.Positivity
import Mathlib.Tactic.Ring

/-!
# Binary formats

The operations on machine numbers are operations on their parts, followed by rounding to the
mantissa of a format and packing into its bits. The two steps are followed here for a format of any
width.

* Packing loses nothing of a canonical value, unless its exponent is past the greatest one
  (`Binary.unpack_pack`, `Binary.unpack_pack_large`), and bits stand for canonical values only
  (`Binary.unpack_cases`).
* Rounding comes to a canonical value (`Binary.round_cases`), off by one unit of the last place at
  most (`Binary.abs_round_sub_le`).
-/

namespace Toolpath

namespace Binary

open Float.Model (Format UnpackedFloat totalExponent)
open Float.Model.UnpackedFloat (Sign Accuracy ExtendedMantissa unpack pack packComponents
  unpackSign unpackExponent unpackMantissa unpackExponent_packComponents
  unpackMantissa_packComponents shiftToTargetExponent roundWithAccuracy)

/-! ## Fields -/

section Fields

variable (spec : Format)

/-- The least exponent is that of the last place of the least values. -/
theorem minExponent_eq : spec.minExponent =
    1 - (spec.exponentBias : ℤ) - spec.mantissaBitsWithoutImplicit := by
  have hbias : ((2 ^ (spec.exponentBits - 1) - 1 : ℕ) : ℤ) = 2 ^ (spec.exponentBits - 1) - 1 := by
    rw [Nat.cast_sub Nat.one_le_two_pow]
    norm_num
  unfold Format.minExponent Format.exponentBias Format.mantissaBits
  rw [hbias]
  push_cast
  ring

theorem two_pow_exponentBits : 2 ^ spec.exponentBits = 2 * spec.exponentBias + 2 := by
  obtain ⟨k, hk⟩ := Nat.exists_eq_add_one_of_ne_zero spec.he.ne'
  have hpos : 0 < 2 ^ k := Nat.two_pow_pos k
  unfold Format.exponentBias
  rw [hk, Nat.add_sub_cancel, pow_succ]
  omega

theorem two_pow_mantissaBits :
    2 ^ spec.mantissaBits = 2 * 2 ^ spec.mantissaBitsWithoutImplicit := by
  unfold Format.mantissaBits
  rw [pow_add, pow_one]

/-- An exponent of ones is the greatest one. -/
theorem toNat_ones : (-1#(spec.exponentBits) : BitVec spec.exponentBits).toNat =
    2 * spec.exponentBias + 1 := by
  rw [BitVec.neg_one_eq_allOnes, BitVec.toNat_allOnes, two_pow_exponentBits]
  omega

/-- The leading bit of a mantissa that fills the format is not stored. -/
theorem toNat_implicit {n : ℕ} (m : BitVec n) : (1#1 ++ m).toNat = 2 ^ n + m.toNat := by
  rw [BitVec.toNat_append, ← Nat.shiftLeft_add_eq_or_of_lt m.isLt]
  simp [Nat.shiftLeft_eq]

/-- The sign is read back from its bit. -/
theorem ofBitVec_unpackSign (s : Sign) (e : BitVec spec.exponentBits)
    (m : BitVec spec.mantissaBitsWithoutImplicit) :
    Sign.ofBitVec (unpackSign (packComponents spec s e m)) = s := by
  have hsign : unpackSign (packComponents spec s e m) = s.toBitVec := by
    ext i hi
    obtain rfl : i = 0 := by omega
    delta unpackSign packComponents
    grind
  rw [hsign]
  cases s <;> rfl

end Fields

/-! ## Canonical values -/

/-- A mantissa and an exponent that a format stores as they are: the mantissa fills the format, or
the exponent is the least. -/
structure IsCanonical (spec : Format) (m : ℕ) (e : ℤ) : Prop where
  pos : 0 < m
  lt : m < 2 ^ spec.mantissaBits
  le : spec.minExponent ≤ e
  full : 2 ^ spec.mantissaBitsWithoutImplicit ≤ m ∨ e = spec.minExponent

variable {spec : Format} {s : Sign} {m : ℕ} {e : ℤ}

theorem ones_ne_zero (spec : Format) : (-1#(spec.exponentBits)) ≠ 0#(spec.exponentBits) := by
  intro heq
  have hnat := congrArg BitVec.toNat heq
  rw [toNat_ones, BitVec.toNat_zero] at hnat
  omega

theorem unpack_of_ones (bits : BitVec spec.numBits) (hone : unpackExponent bits = -1#_) :
    unpack spec bits = if unpackMantissa bits = 0#_ then
      .infinity (Sign.ofBitVec (unpackSign bits)) else .notANumber :=
  if_pos hone

theorem unpack_of_zero (bits : BitVec spec.numBits) (hzero : unpackExponent bits = 0#_)
    (hnone : unpackMantissa bits = 0#_) :
    unpack spec bits = .zero (Sign.ofBitVec (unpackSign bits)) := by
  have hone : unpackExponent bits ≠ -1#_ := by
    rw [hzero]
    exact (ones_ne_zero spec).symm
  unfold unpack
  dsimp only
  rw [if_neg hone, if_pos hzero, dif_pos hnone]

/-- An infinity is read back. -/
theorem unpack_infinity (spec : Format) (s : Sign) :
    unpack spec (pack spec (.infinity s)) = .infinity s := by
  show unpack spec (packComponents spec s (-1#_) 0#_) = .infinity s
  rw [unpack_of_ones _ (by rw [unpackExponent_packComponents]),
    if_pos (by rw [unpackMantissa_packComponents]), ofBitVec_unpackSign]

/-- A zero is read back with its sign. -/
theorem unpack_zero (spec : Format) (s : Sign) :
    unpack spec (pack spec (.zero s)) = .zero s := by
  show unpack spec (packComponents spec s 0#_ 0#_) = .zero s
  rw [unpack_of_zero _ (by rw [unpackExponent_packComponents])
    (by rw [unpackMantissa_packComponents]), ofBitVec_unpackSign]

/-- What is no number is read back as such. -/
theorem unpack_notANumber (spec : Format) :
    unpack spec (pack spec .notANumber) = .notANumber := by
  have hquiet : (1#(spec.mantissaBitsWithoutImplicit) <<< (spec.mantissaBitsWithoutImplicit - 1)) ≠
      0#(spec.mantissaBitsWithoutImplicit) := by
    intro heq
    have hnat := congrArg BitVec.toNat heq
    have hbits := spec.hm
    have hlt : 2 ^ (spec.mantissaBitsWithoutImplicit - 1) < 2 ^ spec.mantissaBitsWithoutImplicit :=
      Nat.pow_lt_pow_right (by decide) (by omega)
    rw [BitVec.toNat_shiftLeft, BitVec.toNat_ofNat,
      Nat.mod_eq_of_lt (Nat.one_lt_two_pow hbits.ne'), Nat.shiftLeft_eq, one_mul,
      Nat.mod_eq_of_lt hlt, BitVec.toNat_zero] at hnat
    exact (Nat.two_pow_pos _).ne' hnat
  show unpack spec (packComponents spec .positive (-1#_) _) = _
  rw [unpack_of_ones _ (by rw [unpackExponent_packComponents]),
    if_neg (by rwa [unpackMantissa_packComponents])]

/-- An exponent field between its two ends stands for a mantissa with a leading bit. -/
theorem unpack_of_full (bits : BitVec spec.numBits) (hone : unpackExponent bits ≠ -1#_)
    (hzero : unpackExponent bits ≠ 0#_) :
    ∃ h, unpack spec bits = .finite (Sign.ofBitVec (unpackSign bits))
      (2 ^ spec.mantissaBitsWithoutImplicit + (unpackMantissa bits).toNat)
      ((unpackExponent bits).toNat - (spec.exponentBias + spec.mantissaBitsWithoutImplicit)) h := by
  rw [← toNat_implicit]
  refine ⟨?_, ?_⟩
  · rw [toNat_implicit]
    exact Nat.add_pos_left (Nat.two_pow_pos _) _
  · unfold unpack
    dsimp only
    rw [if_neg hone, if_neg hzero]

/-- An exponent field of zero stands for the least exponent. -/
theorem unpack_of_short (bits : BitVec spec.numBits) (hzero : unpackExponent bits = 0#_)
    (hfraction : unpackMantissa bits ≠ 0#_) :
    ∃ h, unpack spec bits = .finite (Sign.ofBitVec (unpackSign bits)) (unpackMantissa bits).toNat
      spec.minExponent h := by
  have hexponent : spec.minExponent = ((0#(spec.exponentBits)).toNat : ℤ) -
      (spec.exponentBias + spec.mantissaBitsWithoutImplicit) + 1 := by
    rw [minExponent_eq, BitVec.toNat_zero, Nat.cast_zero]
    ring
  rw [hexponent, ← hzero]
  refine ⟨Nat.pos_of_ne_zero fun h => hfraction (BitVec.eq_of_toNat_eq h), ?_⟩
  unfold unpack
  dsimp only
  rw [if_neg (by rw [hzero]; exact (ones_ne_zero spec).symm), if_pos hzero, dif_neg hfraction]

theorem finite_eq {t : Sign} {n : ℕ} {d : ℤ} (hs : s = t) (hm : m = n) (he : e = d) (h : 0 < m)
    (h' : 0 < n) : UnpackedFloat.finite s m e h = .finite t n d h' := by
  subst hs hm he
  rfl

/-- The fields that a value is packed into, where its exponent fits the format. -/
theorem pack_finite (s : Sign) (h : 0 < m) {field : ℕ}
    (hfield : (field : ℤ) = e + spec.exponentBias + spec.mantissaBitsWithoutImplicit)
    (hfits : field + 1 < 2 ^ spec.exponentBits) :
    pack spec (.finite s m e h) = if m.log2 + 1 = spec.mantissaBits then
        packComponents spec s (BitVec.ofNat _ field) (BitVec.ofNat _ m)
      else packComponents spec s 0#_ (BitVec.ofNat _ m) := by
  have hnat : (e + spec.exponentBias + spec.mantissaBitsWithoutImplicit).toNat = field := by omega
  rw [← hnat] at hfits ⊢
  exact if_neg hfits.not_ge

/-- What is packed of a canonical value is unpacked again. -/
theorem unpack_pack (s : Sign) (h : IsCanonical spec m e)
    (hfits : e ≤ (spec.exponentBias : ℤ) - spec.mantissaBitsWithoutImplicit) :
    unpack spec (pack spec (.finite s m e h.pos)) = .finite s m e h.pos := by
  have hle := h.le
  have hlt := h.lt
  rw [minExponent_eq] at hle
  rw [two_pow_mantissaBits] at hlt
  obtain ⟨field, hfield⟩ : ∃ field : ℕ,
      (field : ℤ) = e + spec.exponentBias + spec.mantissaBitsWithoutImplicit :=
    ⟨(e + spec.exponentBias + spec.mantissaBitsWithoutImplicit).toNat, by omega⟩
  have hcapacity := two_pow_exponentBits spec
  rw [pack_finite s h.pos hfield (by omega)]
  -- a full mantissa leaves its leading bit out, a short one leaves the exponent field zero
  by_cases hfull : 2 ^ spec.mantissaBitsWithoutImplicit ≤ m
  · have hlog : m.log2 = spec.mantissaBitsWithoutImplicit := by
      rw [Nat.log2_eq_iff h.pos.ne', pow_succ]
      omega
    have hnat : (BitVec.ofNat spec.exponentBits field).toNat = field := by
      rw [BitVec.toNat_ofNat, Nat.mod_eq_of_lt (by omega)]
    have hfraction : (BitVec.ofNat spec.mantissaBitsWithoutImplicit m).toNat =
        m - 2 ^ spec.mantissaBitsWithoutImplicit := by
      rw [BitVec.toNat_ofNat, Nat.mod_eq_sub_mod hfull, Nat.mod_eq_of_lt (by omega)]
    have hone : BitVec.ofNat spec.exponentBits field ≠ -1#_ := by
      intro heq
      rw [heq, toNat_ones] at hnat
      omega
    have hzero : BitVec.ofNat spec.exponentBits field ≠ 0#_ := by
      intro heq
      rw [heq, BitVec.toNat_zero] at hnat
      omega
    rw [if_pos (by rw [hlog]; exact add_comm _ _)]
    obtain ⟨hpos, hunpack⟩ := unpack_of_full
      (packComponents spec s (BitVec.ofNat _ field) (BitVec.ofNat _ m))
      (by rwa [unpackExponent_packComponents]) (by rwa [unpackExponent_packComponents])
    rw [hunpack]
    apply finite_eq
    · rw [ofBitVec_unpackSign]
    · rw [unpackMantissa_packComponents, hfraction]
      omega
    · rw [unpackExponent_packComponents, hnat]
      omega
  · have hleast := h.full.resolve_left hfull
    have hshort : m < 2 ^ spec.mantissaBitsWithoutImplicit := not_le.1 hfull
    have hlog : m.log2 < spec.mantissaBitsWithoutImplicit := (Nat.log2_lt h.pos.ne').2 hshort
    have hnat : (BitVec.ofNat spec.mantissaBitsWithoutImplicit m).toNat = m := by
      rw [BitVec.toNat_ofNat, Nat.mod_eq_of_lt hshort]
    have hfraction : BitVec.ofNat spec.mantissaBitsWithoutImplicit m ≠ 0#_ := by
      intro heq
      rw [heq, BitVec.toNat_zero] at hnat
      exact h.pos.ne hnat
    rw [if_neg (by unfold Format.mantissaBits; omega)]
    obtain ⟨hpos, hunpack⟩ := unpack_of_short (packComponents spec s 0#_ (BitVec.ofNat _ m))
      (by rw [unpackExponent_packComponents]) (by rwa [unpackMantissa_packComponents])
    rw [hunpack]
    apply finite_eq
    · rw [ofBitVec_unpackSign]
    · rw [unpackMantissa_packComponents, hnat]
    · exact hleast.symm

/-- Past the greatest exponent there is only infinity. -/
theorem unpack_pack_large (s : Sign) (h : IsCanonical spec m e)
    (hlarge : (spec.exponentBias : ℤ) - spec.mantissaBitsWithoutImplicit < e) :
    unpack spec (pack spec (.finite s m e h.pos)) = .infinity s := by
  have hcapacity := two_pow_exponentBits spec
  have hpack : pack spec (.finite s m e h.pos) = pack spec (.infinity s) := by
    have hfield : 2 ^ spec.exponentBits ≤
        (e + spec.exponentBias + spec.mantissaBitsWithoutImplicit).toNat + 1 := by omega
    exact if_pos hfield
  rw [hpack, unpack_infinity]

/-- What bits stand for: no number, an infinity, a zero, or a canonical value whose exponent fits
the format. -/
theorem unpack_cases (hbias : 0 < spec.exponentBias) (bits : BitVec spec.numBits) :
    unpack spec bits = .notANumber ∨ (∃ s, unpack spec bits = .infinity s) ∨
      (∃ s, unpack spec bits = .zero s) ∨
      ∃ s m e, ∃ h : IsCanonical spec m e,
        e ≤ (spec.exponentBias : ℤ) - spec.mantissaBitsWithoutImplicit ∧
          unpack spec bits = .finite s m e h.pos := by
  have hmin := minExponent_eq spec
  have hmantissa := two_pow_mantissaBits spec
  have hcapacity := two_pow_exponentBits spec
  have hfield := (unpackExponent bits).isLt
  have hfraction := (unpackMantissa bits).isLt
  -- the cases of the decoder: the exponent field of ones, that of zeros, and all others
  by_cases hone : unpackExponent bits = -1#_
  · have hunpack := unpack_of_ones bits hone
    by_cases hnone : unpackMantissa bits = 0#_
    · rw [if_pos hnone] at hunpack
      exact .inr (.inl ⟨_, hunpack⟩)
    · rw [if_neg hnone] at hunpack
      exact .inl hunpack
  · have hne : (unpackExponent bits).toNat ≠ 2 * spec.exponentBias + 1 := by
      rw [← toNat_ones]
      exact fun heq => hone (BitVec.eq_of_toNat_eq heq)
    right
    right
    by_cases hzero : unpackExponent bits = 0#_
    · by_cases hnone : unpackMantissa bits = 0#_
      · exact .inl ⟨_, unpack_of_zero bits hzero hnone⟩
      · obtain ⟨hpos, hunpack⟩ := unpack_of_short bits hzero hnone
        exact .inr ⟨_, _, _, ⟨hpos, by omega, le_rfl, .inr rfl⟩, by omega, hunpack⟩
    · have hpos : (unpackExponent bits).toNat ≠ 0 := fun heq => hzero (BitVec.eq_of_toNat_eq heq)
      obtain ⟨hleading, hunpack⟩ := unpack_of_full bits hone hzero
      exact .inr ⟨_, _, _, ⟨hleading, by omega, by omega, .inl (by omega)⟩, by omega, hunpack⟩

/-- Nothing is lost by packing what bits stand for. -/
theorem unpack_pack_unpack (hbias : 0 < spec.exponentBias) (bits : BitVec spec.numBits) :
    unpack spec (pack spec (unpack spec bits)) = unpack spec bits := by
  obtain hnan | ⟨s, hinfinity⟩ | ⟨s, hzero⟩ | ⟨s, m, e, h, hfits, hfinite⟩ :=
    unpack_cases hbias bits
  · rw [hnan, unpack_notANumber]
  · rw [hinfinity, unpack_infinity]
  · rw [hzero, unpack_zero]
  · rw [hfinite, unpack_pack s h hfits]

/-! ## Rounding -/

/-- How many bits of a mantissa the format has no room for. -/
def spareBits (spec : Format) (m : ℕ) (e : ℤ) : ℕ :=
  (spec.targetExponent (totalExponent m e) - e).toNat

/-- A mantissa is brought to the exponent of its last place, or to the least exponent. -/
theorem targetExponent_eq (spec : Format) (m : ℕ) (e : ℤ) :
    spec.targetExponent (totalExponent m e) =
      max ((m.log2 : ℤ) + e - spec.mantissaBitsWithoutImplicit) spec.minExponent := by
  unfold Format.targetExponent totalExponent Format.mantissaBits
  push_cast
  congr 1
  ring

theorem le_targetExponent_add (spec : Format) (m : ℕ) (e : ℤ) : e + spareBits spec m e =
    max e (spec.targetExponent (totalExponent m e)) := by
  unfold spareBits
  omega

theorem mantissa_shiftRight (em : ExtendedMantissa) (k : ℕ) :
    (em >>> k).mantissa = em.mantissa / 2 ^ k := by
  induction k with
  | zero => exact (Nat.div_one _).symm
  | succ k ih =>
    show (em >>> k).mantissa / 2 = _
    rw [ih, Nat.div_div_eq_div_mul, pow_succ]

/-- The spare bits are shifted out of the mantissa. -/
theorem shiftToTarget_eq (spec : Format) (m : ℕ) (e : ℤ) (a : Accuracy) :
    (shiftToTargetExponent spec m e a).1.mantissa = m / 2 ^ spareBits spec m e ∧
      (shiftToTargetExponent spec m e a).2 = e + spareBits spec m e := by
  have hstart : (ExtendedMantissa.ofMantissaAndAccuracy m a).mantissa = m := by
    unfold ExtendedMantissa.ofMantissaAndAccuracy
    split <;> rfl
  refine ⟨?_, rfl⟩
  show (ExtendedMantissa.ofMantissaAndAccuracy m a >>> spareBits spec m e).mantissa = _
  rw [mantissa_shiftRight, hstart]

/-- A mantissa is rounded down or up by one. -/
theorem roundedMantissa_mem (em : ExtendedMantissa) :
    em.roundedMantissa = em.mantissa ∨ em.roundedMantissa = em.mantissa + 1 := by
  unfold ExtendedMantissa.roundedMantissa Accuracy.roundToNearestEven
  split <;> omega

theorem finite_congr {s : Sign} {m n : ℕ} {e d : ℤ} (hm : m = n) (he : e = d) :
    (if h : m = 0 then UnpackedFloat.zero s else .finite s m e (Nat.pos_of_ne_zero h)) =
      if h : n = 0 then .zero s else .finite s n d (Nat.pos_of_ne_zero h) := by
  subst hm he
  rfl

/-- What is left of a mantissa when the bits there is no room for are dropped and rounded. -/
def rounded (spec : Format) (m : ℕ) (e : ℤ) (a : Accuracy) : ℕ :=
  (shiftToTargetExponent spec m e a).1.roundedMantissa

/-- A mantissa is rounded to the next one below or above. -/
theorem rounded_mem (spec : Format) (m : ℕ) (e : ℤ) (a : Accuracy) :
    rounded spec m e a = m / 2 ^ spareBits spec m e ∨
      rounded spec m e a = m / 2 ^ spareBits spec m e + 1 := by
  have hmem := roundedMantissa_mem (shiftToTargetExponent spec m e a).1
  rwa [(shiftToTarget_eq spec m e a).1] at hmem

/-- Rounding drops the bits there is no room for and rounds, which may make one bit more. -/
theorem round_eq (s : Sign) (m : ℕ) (e : ℤ) (a : Accuracy) :
    roundWithAccuracy spec s m e a =
      if h : rounded spec m e a /
          2 ^ spareBits spec (rounded spec m e a) (e + spareBits spec m e) = 0 then .zero s
      else .finite s
        (rounded spec m e a / 2 ^ spareBits spec (rounded spec m e a) (e + spareBits spec m e))
        (e + spareBits spec m e + spareBits spec (rounded spec m e a) (e + spareBits spec m e))
        (Nat.pos_of_ne_zero h) := by
  obtain ⟨hmantissa, hexponent⟩ := shiftToTarget_eq spec (rounded spec m e a)
    (e + spareBits spec m e) .exact
  unfold roundWithAccuracy
  exact finite_congr hmantissa hexponent

/-- A mantissa that fits has no spare bits. -/
theorem spareBits_of_lt (hm : m < 2 ^ spec.mantissaBits) (he : spec.minExponent ≤ e) :
    spareBits spec m e = 0 := by
  have htarget := targetExponent_eq spec m e
  have hlog : m.log2 ≤ spec.mantissaBitsWithoutImplicit := by
    by_cases hzero : m = 0
    · rw [hzero, Nat.log2_zero]
      exact Nat.zero_le _
    · have hlt := (Nat.log2_lt hzero).2 hm
      unfold Format.mantissaBits at hlt
      omega
  unfold spareBits
  omega

/-- A mantissa that is carried over has one spare bit. -/
theorem spareBits_of_eq (he : spec.minExponent ≤ e) :
    spareBits spec (2 ^ spec.mantissaBits) e = 1 := by
  have htarget := targetExponent_eq spec (2 ^ spec.mantissaBits) e
  rw [Nat.log2_two_pow] at htarget
  unfold spareBits
  rw [htarget]
  unfold Format.mantissaBits
  omega

/-- Without its spare bits a mantissa fits. -/
theorem div_spareBits_lt (spec : Format) (m : ℕ) (e : ℤ) :
    m / 2 ^ spareBits spec m e < 2 ^ spec.mantissaBits := by
  have htarget := targetExponent_eq spec m e
  have hexponent := le_targetExponent_add spec m e
  apply Nat.div_lt_of_lt_mul
  rw [← pow_add]
  calc m < 2 ^ (m.log2 + 1) := Nat.lt_log2_self
    _ ≤ 2 ^ (spareBits spec m e + spec.mantissaBits) :=
      Nat.pow_le_pow_right (by decide) (by unfold Format.mantissaBits; omega)

/-- Unless the exponent is the least, the bits that are left fill the format. -/
theorem le_div_spareBits (hm : 0 < m) (hbits : e ≤ spec.targetExponent (totalExponent m e))
    (hne : spec.targetExponent (totalExponent m e) ≠ spec.minExponent) :
    2 ^ spec.mantissaBitsWithoutImplicit ≤ m / 2 ^ spareBits spec m e := by
  have htarget := targetExponent_eq spec m e
  have hexponent := le_targetExponent_add spec m e
  rw [Nat.le_div_iff_mul_le (Nat.two_pow_pos _), ← pow_add]
  calc 2 ^ (spec.mantissaBitsWithoutImplicit + spareBits spec m e) = 2 ^ m.log2 := by
        congr 1
        omega
    _ ≤ m := Nat.log2_self_le hm.ne'

/-- At the least exponent or below it, only a mantissa of zero has no leading bit. -/
theorem pos_of_targetExponent_ne (he : e ≤ spec.minExponent)
    (hne : spec.targetExponent (totalExponent m e) ≠ spec.minExponent) : 0 < m := by
  refine Nat.pos_of_ne_zero fun hzero => hne ?_
  rw [targetExponent_eq, hzero, Nat.log2_zero]
  exact max_eq_right (by omega)

/-- Rounding of a mantissa that leaves the format no bit to fill comes to zero or to a canonical
value, which has the rounded mantissa. -/
theorem round_cases (s : Sign) (hm : 0 < m ∨ e ≤ spec.minExponent)
    (hbits : e ≤ spec.targetExponent (totalExponent m e)) (a : Accuracy) :
    rounded spec m e a = 0 ∧ roundWithAccuracy spec s m e a = .zero s ∨
      ∃ m' e', ∃ h : IsCanonical spec m' e',
        roundWithAccuracy spec s m e a = .finite s m' e' h.pos ∧
          (m' : ℝ) * 2 ^ e' = rounded spec m e a * 2 ^ spec.targetExponent (totalExponent m e) := by
  have hr := rounded_mem spec m e a
  have hround := @round_eq spec s m e a
  generalize rounded spec m e a = r at hr hround ⊢
  have hlt := div_spareBits_lt spec m e
  have hexponent := le_targetExponent_add spec m e
  rw [max_eq_right hbits] at hexponent
  rw [hexponent] at hround
  have hmin : spec.minExponent ≤ spec.targetExponent (totalExponent m e) := le_max_right _ _
  rcases (show r < 2 ^ spec.mantissaBits ∨ r = 2 ^ spec.mantissaBits by omega) with hfits | rfl
  · rw [spareBits_of_lt hfits hmin, pow_zero, Nat.div_one, Nat.cast_zero, add_zero] at hround
    by_cases hzero : r = 0
    · rw [dif_pos hzero] at hround
      exact .inl ⟨hzero, hround⟩
    · have hcanonical : IsCanonical spec r (spec.targetExponent (totalExponent m e)) := by
        refine ⟨Nat.pos_of_ne_zero hzero, hfits, hmin, ?_⟩
        by_cases hleast : spec.targetExponent (totalExponent m e) = spec.minExponent
        · exact .inr hleast
        · have hpos : 0 < m := hm.elim id fun he => pos_of_targetExponent_ne he hleast
          have hfull := le_div_spareBits hpos hbits hleast
          exact .inl (by omega)
      rw [dif_neg hzero] at hround
      exact .inr ⟨_, _, hcanonical, hround, rfl⟩
  · -- the mantissa has run over by one bit
    have hhalf : 2 ^ spec.mantissaBits / 2 ^ 1 = 2 ^ spec.mantissaBitsWithoutImplicit := by
      rw [two_pow_mantissaBits, pow_one, Nat.mul_div_cancel_left _ (by decide)]
    rw [spareBits_of_eq hmin, hhalf, dif_neg (Nat.two_pow_pos _).ne'] at hround
    have hcanonical : IsCanonical spec (2 ^ spec.mantissaBitsWithoutImplicit)
        (spec.targetExponent (totalExponent m e) + (1 : ℕ)) := by
      refine ⟨Nat.two_pow_pos _, ?_, by omega, .inl le_rfl⟩
      rw [two_pow_mantissaBits]
      exact lt_two_mul_self (Nat.two_pow_pos _)
    refine .inr ⟨_, _, hcanonical, hround, ?_⟩
    rw [two_pow_mantissaBits, Nat.cast_one, zpow_add_one₀ two_ne_zero]
    push_cast
    ring

/-- Rounding is off by one unit of the last place at most. -/
theorem abs_round_sub_le (s : Sign) {x : ℝ} (hm : 0 < m)
    (hbits : e ≤ spec.targetExponent (totalExponent m e)) (a : Accuracy)
    (hle : (m : ℝ) * 2 ^ e ≤ x) (hge : x ≤ (m + 1) * 2 ^ e) :
    (roundWithAccuracy spec s m e a = .zero s ∧
        x ≤ 2 ^ spec.targetExponent (totalExponent m e)) ∨
      ∃ m' e', ∃ h : IsCanonical spec m' e',
        roundWithAccuracy spec s m e a = .finite s m' e' h.pos ∧
          |(m' : ℝ) * 2 ^ e' - x| ≤ 2 ^ spec.targetExponent (totalExponent m e) := by
  have hr := rounded_mem spec m e a
  have hcases := round_cases s (.inl hm) hbits a
  generalize rounded spec m e a = r at hr hcases
  have hexponent := le_targetExponent_add spec m e
  rw [max_eq_right hbits] at hexponent
  have hunit : (0 : ℝ) < 2 ^ spec.targetExponent (totalExponent m e) := by positivity
  -- what is kept of the mantissa and the number above it enclose the value
  have herror : |(r : ℝ) * 2 ^ spec.targetExponent (totalExponent m e) - x| ≤
      2 ^ spec.targetExponent (totalExponent m e) := by
    have hsplit : (2 : ℝ) ^ spec.targetExponent (totalExponent m e) =
        2 ^ spareBits spec m e * 2 ^ e := by
      rw [← hexponent, zpow_add₀ two_ne_zero, zpow_natCast, mul_comm]
    have hlow : m / 2 ^ spareBits spec m e * 2 ^ spareBits spec m e ≤ m := Nat.div_mul_le_self _ _
    have hhigh : m + 1 ≤ (m / 2 ^ spareBits spec m e + 1) * 2 ^ spareBits spec m e := by
      rw [mul_comm]
      exact Nat.lt_mul_div_succ m (Nat.two_pow_pos _)
    generalize m / 2 ^ spareBits spec m e = kept at hr hlow hhigh
    have hbelow : (kept : ℝ) * 2 ^ spec.targetExponent (totalExponent m e) ≤ x := by
      have hcast : (kept : ℝ) * 2 ^ spareBits spec m e ≤ m := by exact_mod_cast hlow
      calc (kept : ℝ) * 2 ^ spec.targetExponent (totalExponent m e)
          = kept * 2 ^ spareBits spec m e * 2 ^ e := by rw [hsplit, mul_assoc]
        _ ≤ m * 2 ^ e := mul_le_mul_of_nonneg_right hcast (by positivity)
        _ ≤ x := hle
    have habove : x ≤ ((kept : ℝ) + 1) * 2 ^ spec.targetExponent (totalExponent m e) := by
      have hcast : (m : ℝ) + 1 ≤ (kept + 1) * 2 ^ spareBits spec m e := by exact_mod_cast hhigh
      calc x ≤ (m + 1) * 2 ^ e := hge
        _ ≤ (kept + 1) * 2 ^ spareBits spec m e * 2 ^ e :=
          mul_le_mul_of_nonneg_right hcast (by positivity)
        _ = (kept + 1) * 2 ^ spec.targetExponent (totalExponent m e) := by rw [hsplit, mul_assoc]
    rw [add_mul, one_mul] at habove
    rw [abs_le]
    rcases hr with rfl | rfl
    · constructor <;> linarith
    · push_cast
      rw [add_mul, one_mul]
      constructor <;> linarith
  rcases hcases with ⟨rfl, hzero⟩ | ⟨m', e', h, hfinite, hvalue⟩
  · refine .inl ⟨hzero, ?_⟩
    rw [Nat.cast_zero, zero_mul, zero_sub, abs_neg] at herror
    exact (le_abs_self x).trans herror
  · refine .inr ⟨m', e', h, hfinite, ?_⟩
    rwa [hvalue]

/-- The unit of the last place is a small part of the value, unless the exponent is the least. -/
theorem two_zpow_targetExponent_le {x : ℝ} (hm : 0 < m) (hle : (m : ℝ) * 2 ^ e ≤ x) :
    (2 : ℝ) ^ spec.targetExponent (totalExponent m e) ≤
      max (x / 2 ^ spec.mantissaBitsWithoutImplicit) (2 ^ spec.minExponent) := by
  rw [targetExponent_eq]
  rcases max_choice ((m.log2 : ℤ) + e - spec.mantissaBitsWithoutImplicit) spec.minExponent with
    hmax | hmax
  · have hleading : ((2 ^ m.log2 : ℕ) : ℝ) ≤ m := by exact_mod_cast Nat.log2_self_le hm.ne'
    apply le_max_of_le_left
    rw [hmax, zpow_sub₀ two_ne_zero, zpow_add₀ two_ne_zero, zpow_natCast, zpow_natCast]
    apply div_le_div_of_nonneg_right _ (by positivity)
    calc (2 : ℝ) ^ m.log2 * 2 ^ e ≤ m * 2 ^ e := by
          apply mul_le_mul_of_nonneg_right _ (by positivity)
          exact_mod_cast hleading
      _ ≤ x := hle
  · rw [hmax]
    exact le_max_right _ _

end Binary

end Toolpath
