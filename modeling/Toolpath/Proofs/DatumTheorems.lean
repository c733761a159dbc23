import Toolpath.Number.Machine
import Toolpath.Proofs.FormatTheorems

/-!
# What bit patterns stand for

A bit pattern is read in two ways: as a datum, for conversions and for text, and as the parts that
the arithmetic computes with. In a format of any width the two readings are one
(`Binary.decode_eq`).
-/

namespace Toolpath

namespace Binary

open Float.Model (Format UnpackedFloat)
open Float.Model.UnpackedFloat (Sign unpack unpackSign unpackExponent unpackMantissa)
open Number (BinaryFormat Datum)

/-! ## Fields of a pattern -/

section Fields

variable {spec : Format} (bits : BitVec spec.numBits)

/-- The sign is the first bit. -/
theorem toNat_unpackSign : (unpackSign bits).toNat =
    bits.toNat / 2 ^ (spec.mantissaBitsWithoutImplicit + spec.exponentBits) % 2 := by
  delta unpackSign
  simp [Nat.shiftRight_eq_div_pow]

/-- The exponent stands above the mantissa. -/
theorem toNat_unpackExponent : (unpackExponent bits).toNat =
    bits.toNat / 2 ^ spec.mantissaBitsWithoutImplicit % 2 ^ spec.exponentBits := by
  have he := spec.he
  have hwidth : spec.mantissaBitsWithoutImplicit + spec.exponentBits - 1 -
    spec.mantissaBitsWithoutImplicit + 1 = spec.exponentBits := by omega
  delta unpackExponent
  simp [Nat.shiftRight_eq_div_pow, hwidth]

/-- The mantissa is the last bits. -/
theorem toNat_unpackMantissa : (unpackMantissa bits).toNat =
    bits.toNat % 2 ^ spec.mantissaBitsWithoutImplicit := by
  have hm := spec.hm
  have hwidth : spec.mantissaBitsWithoutImplicit - 1 + 1 = spec.mantissaBitsWithoutImplicit := by
    omega
  delta unpackMantissa
  simp [hwidth]

end Fields

/-! ## Data -/

/-- Whether a sign is the negative one. -/
def isMinus : Sign → Bool
  | .negative => true
  | .positive => false

/-- What the parts of a number stand for. -/
def datumOf (spec : Format) : UnpackedFloat → Datum
  | .notANumber => .nan
  | .infinity s => .infinite (isMinus s)
  | .zero s => .finite (isMinus s) 0 spec.minExponent
  | .finite s m e _ => .finite (isMinus s) m e

/-- The widths of the fields of a format. -/
def layout (spec : Format) : BinaryFormat := ⟨spec.mantissaBitsWithoutImplicit, spec.exponentBits⟩

/-- The bit of the sign tells the negative sign. -/
theorem isMinus_ofBitVec (sign : BitVec 1) : isMinus (Sign.ofBitVec sign) = (sign.toNat == 1) := by
  revert sign
  decide

theorem hiddenBit_layout (spec : Format) :
    (layout spec).hiddenBit = 2 ^ spec.mantissaBitsWithoutImplicit := rfl

theorem signWeight_layout (spec : Format) : (layout spec).signWeight =
    2 ^ (spec.mantissaBitsWithoutImplicit + spec.exponentBits) := rfl

theorem infinityBits_layout (spec : Format) : (layout spec).infinityBits =
    (2 * spec.exponentBias + 1) * 2 ^ spec.mantissaBitsWithoutImplicit := by
  show (2 ^ spec.exponentBits - 1) * 2 ^ spec.mantissaBitsWithoutImplicit = _
  rw [two_pow_exponentBits, Nat.add_sub_assoc (by decide)]

theorem minExponent_layout (spec : Format) : (layout spec).minExponent = spec.minExponent := by
  have hbias : ((spec.exponentBias : ℕ) : ℤ) = 2 ^ (spec.exponentBits - 1) - 1 := by
    unfold Format.exponentBias
    rw [Nat.cast_sub Nat.one_le_two_pow]
    norm_num
  rw [minExponent_eq, hbias]
  show 2 - ((2 ^ (spec.exponentBits - 1) : ℕ) : ℤ) - (spec.mantissaBitsWithoutImplicit : ℤ) = _
  push_cast
  ring

/-- Exponent and mantissa are the magnitude of a pattern, cut at the hidden bit. -/
theorem magnitude_eq {spec : Format} (bits : BitVec spec.numBits) :
    bits.toNat % (layout spec).signWeight =
      (unpackExponent bits).toNat * 2 ^ spec.mantissaBitsWithoutImplicit +
        (unpackMantissa bits).toNat := by
  have hfield : bits.toNat % (layout spec).signWeight / 2 ^ spec.mantissaBitsWithoutImplicit =
      (unpackExponent bits).toNat := by
    rw [signWeight_layout, toNat_unpackExponent, pow_add, Nat.mod_mul_right_div_self]
  have hfraction : bits.toNat % (layout spec).signWeight % 2 ^ spec.mantissaBitsWithoutImplicit =
      (unpackMantissa bits).toNat := by
    rw [signWeight_layout, toNat_unpackMantissa, pow_add, Nat.mod_mul_right_mod]
  rw [← hfield, ← hfraction, Nat.div_add_mod']

/-- Only the full exponent makes a magnitude of infinity or more. -/
theorem magnitude_lt {spec : Format} {bits : BitVec spec.numBits}
    (h : unpackExponent bits ≠ -1#_) :
    (unpackExponent bits).toNat * 2 ^ spec.mantissaBitsWithoutImplicit +
      (unpackMantissa bits).toNat <
        (2 * spec.exponentBias + 1) * 2 ^ spec.mantissaBitsWithoutImplicit := by
  have hne : (unpackExponent bits).toNat ≠ 2 * spec.exponentBias + 1 := by
    rw [← toNat_ones]
    exact fun heq => h (BitVec.eq_of_toNat_eq heq)
  have hlow := (unpackMantissa bits).isLt
  have hcapacity := two_pow_exponentBits spec
  have hlt := (unpackExponent bits).isLt
  calc (unpackExponent bits).toNat * 2 ^ spec.mantissaBitsWithoutImplicit +
        (unpackMantissa bits).toNat
      < ((unpackExponent bits).toNat + 1) * 2 ^ spec.mantissaBitsWithoutImplicit := by
        rw [Nat.succ_mul]
        exact Nat.add_lt_add_left hlow _
    _ ≤ (2 * spec.exponentBias + 1) * 2 ^ spec.mantissaBitsWithoutImplicit :=
        Nat.mul_le_mul_right _ (by omega)

/-- Bits stand for what their fields say. -/
theorem decode_eq {spec : Format} (bits : BitVec spec.numBits) :
    (layout spec).decode bits.toNat = datumOf spec (unpack spec bits) := by
  have hsign := isMinus_ofBitVec (unpackSign bits)
  rw [toNat_unpackSign, ← signWeight_layout] at hsign
  have hlow := (unpackMantissa bits).isLt
  have hfield : ((unpackExponent bits).toNat * 2 ^ spec.mantissaBitsWithoutImplicit +
      (unpackMantissa bits).toNat) / 2 ^ spec.mantissaBitsWithoutImplicit =
        (unpackExponent bits).toNat := by
    rw [mul_comm, Nat.mul_add_div (Nat.two_pow_pos _), Nat.div_eq_of_lt hlow, add_zero]
  unfold BinaryFormat.decode
  rw [hiddenBit_layout, infinityBits_layout, minExponent_layout]
  dsimp only
  rw [← hsign, magnitude_eq bits, hfield, Nat.mul_add_mod', Nat.mod_eq_of_lt hlow]
  by_cases hone : unpackExponent bits = -1#_
  · -- the magnitude is that of infinity, or above it
    rw [unpack_of_ones bits hone, hone, toNat_ones]
    by_cases hnone : unpackMantissa bits = 0#_
    · rw [if_pos hnone, hnone, BitVec.toNat_zero, if_neg (by omega), if_pos (add_zero _)]
      rfl
    · have hpos : (unpackMantissa bits).toNat ≠ 0 := fun heq => hnone (BitVec.eq_of_toNat_eq heq)
      rw [if_neg hnone, if_pos (by omega)]
      rfl
  have hbelow := magnitude_lt hone
  rw [if_neg hbelow.not_gt, if_neg hbelow.ne]
  by_cases hzero : unpackExponent bits = 0#_
  · rw [if_pos (by rw [hzero, BitVec.toNat_zero])]
    by_cases hnone : unpackMantissa bits = 0#_
    · rw [unpack_of_zero bits hzero hnone, hnone, BitVec.toNat_zero]
      rfl
    · obtain ⟨_, hunpack⟩ := unpack_of_short bits hzero hnone
      rw [hunpack]
      rfl
  · have hpos : (unpackExponent bits).toNat ≠ 0 := fun heq => hzero (BitVec.eq_of_toNat_eq heq)
    have hmin := minExponent_eq spec
    obtain ⟨_, hunpack⟩ := unpack_of_full bits hone hzero
    rw [if_neg hpos, hunpack]
    show Datum.finite _ _ _ = Datum.finite _ _ _
    congr 1
    · exact add_comm _ _
    · omega

/-- Parts are finite where what they stand for is. -/
theorem isFinite_datumOf (spec : Format) (u : UnpackedFloat) :
    (datumOf spec u).isFinite = u.isFinite := by
  cases u <;> rfl

end Binary

end Toolpath
