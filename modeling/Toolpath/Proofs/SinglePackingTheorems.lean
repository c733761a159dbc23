import Toolpath.Proofs.FormatTheorems
import Toolpath.Proofs.SingleOrderTheorems

/-!
# Rounding to single precision

Every operation on single-precision numbers is one on their parts, followed by rounding to the
24 bits of a mantissa and packing into the bits of a number. The two steps are followed here as
far as the class and the sign of the result go:

* packing keeps the sign (`Single.hasSign_ofParts`), stays finite up to the greatest exponent
  (`Single.isFinite_ofParts`) and keeps a canonical value above zero (`Single.isAbove_ofParts`);
* rounding keeps the sign, stays finite up to the greatest exponent (`Single.isFinite_round`) and
  does not lose what the format can hold (`Single.exists_round`).
-/

namespace Toolpath

namespace Single

open Float.Model (Format UnpackedFloat totalExponent)
open Float.Model.UnpackedFloat (Sign Accuracy unpack pack packComponents unpackSign unpackExponent
  unpackMantissa unpackExponent_packComponents unpackMantissa_packComponents shiftToTargetExponent
  roundWithAccuracy)

/-! ## Classes -/

/-- A number with the given sign; a zero has one too. -/
def HasSign (s : Sign) : UnpackedFloat → Prop
  | .notANumber => False
  | .infinity t => t = s
  | .zero t => t = s
  | .finite t _ _ _ => t = s

/-- A value below zero. -/
def IsBelow : UnpackedFloat → Prop
  | .infinity .negative => True
  | .finite .negative _ _ _ => True
  | _ => False

/-- A value above zero. -/
def IsAbove : UnpackedFloat → Prop
  | .infinity .positive => True
  | .finite .positive _ _ _ => True
  | _ => False

/-- A finite value whose mantissa fills the format, unless its exponent is the least. -/
def IsCanonical : UnpackedFloat → Prop
  | .finite _ m e _ => m < 2 ^ 24 ∧ -149 ≤ e ∧ e ≤ 104 ∧ (2 ^ 23 ≤ m ∨ e = -149)
  | _ => True

theorem HasSign.ne {s : Sign} {u : UnpackedFloat} (h : HasSign s u) : u ≠ .notANumber := by
  rintro rfl
  exact h

theorem HasSign.not_isBelow {u : UnpackedFloat} (h : HasSign .positive u) : ¬ IsBelow u := by
  cases u with
  | notANumber => exact h.elim
  | infinity s => obtain rfl : s = .positive := h; exact id
  | zero s => exact id
  | finite s m e hm => obtain rfl : s = .positive := h; exact id

/-! ## The bits of a number -/

/-- The exponent field of a finite number has a bit that is not set. -/
theorem exponent_ne {n : ℕ} (h : n + 1 < 256) : BitVec.ofNat 8 n ≠ -1#8 := by
  intro heq
  have hnat := congrArg BitVec.toNat heq
  have hones : (-1#8 : BitVec 8).toNat = 255 := rfl
  rw [BitVec.toNat_ofNat, Nat.mod_eq_of_lt (by omega)] at hnat
  omega

/-- An exponent field with a bit that is not set is unpacked as one of a finite number. -/
theorem unpackExponent_ne (s : Sign) {e : BitVec 8} (m : BitVec 23) (he : e ≠ -1#8) :
    unpackExponent (packComponents .binary32 s e m) ≠ -1#8 := by
  rw [unpackExponent_packComponents]
  exact he

/-- What bits are unpacked as, unless their exponent field is that of an infinity: zero, a number
without the leading bit at the least exponent, or a number with the leading bit. -/
theorem unpack_cases {bits : BitVec 32} (h : @unpackExponent .binary32 bits ≠ -1#8) :
    (unpack .binary32 bits = .zero (Sign.ofBitVec (@unpackSign .binary32 bits)) ∧
        @unpackExponent .binary32 bits = 0#8 ∧ @unpackMantissa .binary32 bits = 0#23) ∨
      (∃ hm, unpack .binary32 bits = .finite (Sign.ofBitVec (@unpackSign .binary32 bits))
        (@unpackMantissa .binary32 bits).toNat (-149) hm) ∨
      (@unpackExponent .binary32 bits ≠ 0#8 ∧
        ∃ hm, unpack .binary32 bits = .finite (Sign.ofBitVec (@unpackSign .binary32 bits))
          (2 ^ 23 + (@unpackMantissa .binary32 bits).toNat)
          ((@unpackExponent .binary32 bits).toNat - 150) hm) := by
  by_cases hzero : @unpackExponent .binary32 bits = 0#8
  · by_cases hnone : @unpackMantissa .binary32 bits = 0#23
    · exact .inl ⟨@Binary.unpack_of_zero .binary32 bits hzero hnone, hzero, hnone⟩
    · exact .inr (.inl (@Binary.unpack_of_short .binary32 bits hzero hnone))
  · exact .inr (.inr ⟨hzero, @Binary.unpack_of_full .binary32 bits h hzero⟩)

/-- With an exponent field of a finite number, packed components are unpacked as zero or as a
finite number with the same sign. -/
theorem unpack_packComponents (s : Sign) {e : BitVec 8} (m : BitVec 23) (he : e ≠ -1#8) :
    (unpack .binary32 (packComponents .binary32 s e m) = .zero s ∧ e = 0#8 ∧ m = 0#23) ∨
      ∃ m' e' hm, unpack .binary32 (packComponents .binary32 s e m) = .finite s m' e' hm := by
  have hcases := unpack_cases (unpackExponent_ne s m he)
  rw [Binary.ofBitVec_unpackSign] at hcases
  obtain ⟨hzero, hexp, hnone⟩ | ⟨hm, hfinite⟩ | ⟨-, hm, hfinite⟩ := hcases
  · rw [unpackExponent_packComponents] at hexp
    rw [unpackMantissa_packComponents] at hnone
    exact .inl ⟨hzero, hexp, hnone⟩
  · exact .inr ⟨_, _, _, hfinite⟩
  · exact .inr ⟨_, _, _, hfinite⟩

theorem hasSign_unpack (s : Sign) (e : BitVec 8) (m : BitVec 23) (he : e ≠ -1#8) :
    HasSign s (unpack .binary32 (packComponents .binary32 s e m)) := by
  obtain ⟨hzero, -, -⟩ | ⟨m', e', hm, hfinite⟩ := unpack_packComponents s m he
  · rw [hzero]
    rfl
  · rw [hfinite]
    rfl

theorem isFinite_unpack (s : Sign) (e : BitVec 8) (m : BitVec 23) (he : e ≠ -1#8) :
    (unpack .binary32 (packComponents .binary32 s e m)).isFinite = true := by
  obtain ⟨hzero, -, -⟩ | ⟨m', e', hm, hfinite⟩ := unpack_packComponents s m he
  · rw [hzero]
    rfl
  · rw [hfinite]
    rfl

theorem isAbove_unpack (e : BitVec 8) (m : BitVec 23) (he : e ≠ -1#8) (h : e ≠ 0#8 ∨ m ≠ 0#23) :
    IsAbove (unpack .binary32 (packComponents .binary32 .positive e m)) := by
  obtain ⟨-, hexp, hmantissa⟩ | ⟨m', e', hm, hfinite⟩ := unpack_packComponents .positive m he
  · exact (h.elim (fun h => h hexp) fun h => h hmantissa).elim
  · rw [hfinite]
    trivial

/-- An exponent field of ones stands for an infinity or for no number. -/
theorem unpack_ones {bits : BitVec 32} (h : @unpackExponent .binary32 bits = -1#8) :
    unpack .binary32 bits = .infinity (Sign.ofBitVec (@unpackSign .binary32 bits)) ∨
      unpack .binary32 bits = .notANumber := by
  have hunpack := @Binary.unpack_of_ones .binary32 bits h
  by_cases hnone : @unpackMantissa .binary32 bits = 0#23
  · exact .inl (hunpack.trans (if_pos hnone))
  · exact .inr (hunpack.trans (if_neg hnone))

/-- What a number is made of is canonical. -/
theorem isCanonical_parts (x : Float32) : IsCanonical (parts x) := by
  show IsCanonical (unpack .binary32 x.toModel.toBits.toBitVec)
  generalize x.toModel.toBits.toBitVec = bits
  by_cases hones : @unpackExponent .binary32 bits = -1#8
  · obtain hinf | hnan := unpack_ones hones
    · rw [hinf]
      trivial
    · rw [hnan]
      trivial
  have hlt : (@unpackMantissa .binary32 bits).toNat < 2 ^ 23 :=
    (@unpackMantissa .binary32 bits).isLt
  obtain ⟨hzero, -, -⟩ | ⟨hm, hfinite⟩ | ⟨hexp, hm, hfinite⟩ := unpack_cases hones
  · rw [hzero]
    trivial
  · -- without the leading bit the exponent is the least
    rw [hfinite]
    exact ⟨by omega, le_rfl, by decide, .inr rfl⟩
  · -- with it the mantissa is full, and the exponent field leaves out both of its ends
    have hpos : (@unpackExponent .binary32 bits).toNat ≠ 0 :=
      fun h => hexp (BitVec.eq_of_toNat_eq h)
    have hne : (@unpackExponent .binary32 bits).toNat ≠ 255 :=
      fun h => hones (BitVec.eq_of_toNat_eq h)
    have hbits : (@unpackExponent .binary32 bits).toNat < 256 :=
      (@unpackExponent .binary32 bits).isLt
    rw [hfinite]
    exact ⟨by omega, by omega, by omega, .inl (by omega)⟩

/-! ## Packing -/

/-- The number that packing makes of the result of an operation. -/
def ofParts (u : UnpackedFloat) : Float32 := .ofModel (.pack u)

theorem parts_ofParts (u : UnpackedFloat) :
    parts (ofParts u) = unpack .binary32 (pack .binary32 u) := rfl

/-- Packing keeps the sign. -/
theorem hasSign_ofParts {s : Sign} {u : UnpackedFloat} (h : HasSign s u) :
    HasSign s (parts (ofParts u)) := by
  rw [parts_ofParts]
  cases u with
  | notANumber => exact h.elim
  | infinity t =>
    obtain rfl : t = s := h
    cases t <;> rfl
  | zero t =>
    obtain rfl : t = s := h
    cases t <;> rfl
  | finite t m e hm =>
    obtain rfl : t = s := h
    unfold pack
    dsimp only
    -- past the greatest exponent, with the leading bit, and without it
    split_ifs with hlarge
    · cases t <;> rfl
    · exact hasSign_unpack _ _ _ (exponent_ne (not_le.1 hlarge))
    · exact hasSign_unpack _ _ _ (by decide)

/-- Packing leads nowhere below zero but from there. -/
theorem not_isBelow_ofParts {u : UnpackedFloat} (h : ¬ IsBelow u) :
    ¬ IsBelow (parts (ofParts u)) := by
  cases u with
  | notANumber => exact id
  | infinity s =>
    cases s with
    | negative => exact (h trivial).elim
    | positive => exact (hasSign_ofParts (u := .infinity .positive) rfl).not_isBelow
  | zero s =>
    rw [parts_ofParts]
    cases s <;> exact id
  | finite s m e hm =>
    cases s with
    | negative => exact (h trivial).elim
    | positive => exact (hasSign_ofParts (u := .finite .positive m e hm) rfl).not_isBelow

/-- The exponent field of a finite value, where it fits. -/
theorem biased_lt {e : ℤ} (he : e ≤ 104) :
    ¬ 2 ^ 8 ≤ (e + (Format.exponentBias .binary32 : ℤ) + ((23 : ℕ) : ℤ)).toNat + 1 := by
  have hbias : (Format.exponentBias .binary32 : ℤ) = 127 := rfl
  rw [hbias]
  omega

/-- Up to the greatest exponent, a finite value stays finite. -/
theorem isFinite_ofParts {s : Sign} {m : ℕ} {e : ℤ} (hm : 0 < m) (he : e ≤ 104) :
    (parts (ofParts (.finite s m e hm))).isFinite = true := by
  rw [parts_ofParts]
  unfold pack
  dsimp only
  rw [if_neg (biased_lt he)]
  split_ifs
  · exact isFinite_unpack _ _ _ (exponent_ne (not_le.1 (biased_lt he)))
  · exact isFinite_unpack _ _ _ (by decide)

/-- What the format can hold above zero stays above zero. -/
theorem isAbove_ofParts {m : ℕ} {e : ℤ} (hm : 0 < m) (hfits : m < 2 ^ 24) (he : -149 ≤ e) :
    IsAbove (parts (ofParts (.finite .positive m e hm))) := by
  rw [parts_ofParts]
  unfold pack
  dsimp only
  split_ifs with hlarge hfull
  · trivial
  · -- the exponent field is not zero
    apply isAbove_unpack _ _ (exponent_ne (not_le.1 hlarge)) (.inl _)
    intro hzero
    have hnat := congrArg BitVec.toNat hzero
    have hbias : (Format.exponentBias .binary32 : ℤ) = 127 := rfl
    rw [hbias] at hlarge hnat
    rw [BitVec.toNat_ofNat, Nat.mod_eq_of_lt (by omega), BitVec.toNat_zero] at hnat
    omega
  · -- the mantissa is stored as it is
    apply isAbove_unpack _ _ (by decide) (.inr _)
    intro hzero
    have hnat := congrArg BitVec.toNat hzero
    have hlog : m.log2 < 23 := by
      have hlt : m.log2 < 24 := (Nat.log2_lt hm.ne').2 hfits
      have hne : m.log2 + 1 ≠ 24 := hfull
      omega
    have hshort : m < 2 ^ 23 := (Nat.log2_lt hm.ne').1 hlog
    rw [BitVec.toNat_ofNat, Nat.mod_eq_of_lt hshort, BitVec.toNat_zero] at hnat
    omega

/-! ## Rounding -/

/-- How many bits of a mantissa the format has no room for. -/
def spareBits (m : ℕ) (e : ℤ) : ℕ :=
  (Format.binary32.targetExponent (totalExponent m e) - e).toNat

/-- The bits that are dropped reach down to the last of 24 bits or to the least exponent. -/
theorem spareBits_eq (m : ℕ) (e : ℤ) :
    (spareBits m e : ℤ) = max (max ((m.log2 : ℤ) - 23) (-149 - e)) 0 := by
  have hmin : Format.binary32.minExponent = -149 := rfl
  have hbits : (Format.binary32.mantissaBits : ℤ) = 24 := rfl
  unfold spareBits Format.targetExponent totalExponent
  rw [hmin, hbits]
  omega

/-- Rounding drops bits, rounds, and drops one more bit where the mantissa has run over. -/
theorem round_eq (s : Sign) (m : ℕ) (e : ℤ) (a : Accuracy) :
    ∃ r, m / 2 ^ spareBits m e ≤ r ∧ r ≤ m / 2 ^ spareBits m e + 1 ∧
      roundWithAccuracy .binary32 s m e a =
        if h : r / 2 ^ spareBits r (e + spareBits m e) = 0 then .zero s
        else .finite s (r / 2 ^ spareBits r (e + spareBits m e))
          (e + spareBits m e + spareBits r (e + spareBits m e)) (Nat.pos_of_ne_zero h) := by
  have hspare : Binary.spareBits .binary32 = spareBits := rfl
  have hmem := Binary.rounded_mem .binary32 m e a
  have hround := @Binary.round_eq .binary32 s m e a
  rw [hspare] at hmem hround
  exact ⟨Binary.rounded .binary32 m e a, by omega, by omega, hround⟩

/-- What is left of a mantissa fits the format. -/
theorem div_spareBits_lt (m : ℕ) (e : ℤ) : m / 2 ^ spareBits m e < 2 ^ 24 :=
  Binary.div_spareBits_lt .binary32 m e

/-- The leading bit is kept, unless it is below what the format can hold. -/
theorem div_spareBits_pos {m : ℕ} {e : ℤ} (hm : 0 < m) (he : -149 ≤ m.log2 + e) :
    0 < m / 2 ^ spareBits m e := by
  have hspare := spareBits_eq m e
  apply Nat.div_pos _ (Nat.two_pow_pos _)
  calc 2 ^ spareBits m e ≤ 2 ^ m.log2 := Nat.pow_le_pow_right (by decide) (by omega)
    _ ≤ m := Nat.log2_self_le hm.ne'

/-- Rounding keeps the sign. -/
theorem hasSign_round {spec : Format} (s : Sign) (m : ℕ) (e : ℤ) (a : Accuracy) :
    HasSign s (roundWithAccuracy spec s m e a) := by
  unfold roundWithAccuracy
  dsimp only
  generalize shiftToTargetExponent _ _ _ _ = shifted
  by_cases hnone : shifted.1.mantissa = 0
  · rw [dif_pos hnone]
    rfl
  · rw [dif_neg hnone]
    rfl

/-- Rounding goes to infinity only past the greatest exponent. -/
theorem isFinite_round {s : Sign} {m : ℕ} {e : ℤ} {a : Accuracy} (hlog : m.log2 + e ≤ 126)
    (he : e ≤ 103) : (parts (ofParts (roundWithAccuracy .binary32 s m e a))).isFinite = true := by
  obtain ⟨r, -, hr, hround⟩ := round_eq s m e a
  rw [hround]
  by_cases hzero : r / 2 ^ spareBits r (e + spareBits m e) = 0
  · rw [dif_pos hzero]
    cases s <;> rfl
  · rw [dif_neg hzero]
    apply isFinite_ofParts
    have hspare := spareBits_eq m e
    have hagain := spareBits_eq r (e + spareBits m e)
    have hpos : r ≠ 0 := by
      rintro rfl
      exact hzero (Nat.zero_div _)
    have hlt := div_spareBits_lt m e
    -- the mantissa may have run over by one bit, which the second shift drops
    have hlogr : r.log2 < 25 := (Nat.log2_lt hpos).2 (by omega)
    omega

/-- A mantissa at an exponent the format has keeps its leading bit, at an exponent it has. -/
theorem div_spareBits_again {r : ℕ} {e : ℤ} (hr : 0 < r) (he : -149 ≤ e) :
    0 < r / 2 ^ spareBits r e ∧ -149 ≤ e + spareBits r e :=
  ⟨div_spareBits_pos hr (by omega), by omega⟩

/-- Rounding does not lose what the format can hold. -/
theorem exists_round {m : ℕ} {e : ℤ} (hm : 0 < m) (he : -149 ≤ m.log2 + e) (s : Sign)
    (a : Accuracy) :
    ∃ m' e' hm', roundWithAccuracy .binary32 s m e a = .finite s m' e' hm' ∧
      m' < 2 ^ 24 ∧ -149 ≤ e' := by
  obtain ⟨r, hr, -, hround⟩ := round_eq s m e a
  have hpos : 0 < r := Nat.lt_of_lt_of_le (div_spareBits_pos hm he) hr
  have hexp : -149 ≤ e + spareBits m e := by
    have hspare := spareBits_eq m e
    clear hround
    omega
  obtain ⟨hagain, hlow⟩ := div_spareBits_again hpos hexp
  exact ⟨_, _, hagain, hround.trans (dif_neg hagain.ne'), div_spareBits_lt _ _, hlow⟩

end Single

end Toolpath
