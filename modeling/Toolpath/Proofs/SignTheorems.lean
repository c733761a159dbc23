import Toolpath.Proofs.DoubleTheorems
import Toolpath.Proofs.SinglePackingTheorems
import Toolpath.Scalar.Single
import Toolpath.Vector

/-!
# Signs of results

Zero has two signs, so a result that is not below zero may still be written with a minus sign.
Squares have the positive sign or are no number, whatever has been squared, and sums, roots and
quotients of such results are such results again (`Binary.IsUnsigned`). So are the lengths of
vectors and the diagonal over two sides (`Single.isUnsigned_hypot`).
-/

namespace Toolpath

open Float.Model (Format UnpackedFloat)
open Float.Model.UnpackedFloat (Sign unpack pack packComponents unpackSign)
open Number (BinaryFormat Datum)
open Single (HasSign hasSign_round)

namespace Binary

variable {spec : Format} {u v : UnpackedFloat}

/-- No number, or one of the positive sign. -/
def IsUnsigned (u : UnpackedFloat) : Prop := u = .notANumber ∨ HasSign .positive u

/-- What has no sign is no number, or is an infinity, a zero or a finite number of the positive
sign. -/
theorem IsUnsigned.cases (h : IsUnsigned u) : u = .notANumber ∨ u = .infinity .positive ∨
    u = .zero .positive ∨ ∃ m e hm, u = .finite .positive m e hm := by
  rcases u with s | _ | s | ⟨s, m, e, hm⟩
  · obtain rfl : s = .positive := h.resolve_left nofun
    exact .inr (.inl rfl)
  · exact .inl rfl
  · obtain rfl : s = .positive := h.resolve_left nofun
    exact .inr (.inr (.inl rfl))
  · obtain rfl : s = .positive := h.resolve_left nofun
    exact .inr (.inr (.inr ⟨m, e, hm, rfl⟩))

/-- What has no sign is not below zero. -/
theorem IsUnsigned.not_isBelow (h : IsUnsigned u) : ¬ Single.IsBelow u := by
  rcases h with rfl | hsign
  · exact id
  · exact hsign.not_isBelow

/-- A datum is negative by the sign of its parts. -/
theorem isUnsigned_iff (spec : Format) :
    IsUnsigned u ↔ (datumOf spec u).isNegative = false := by
  rcases u with s | _ | s | ⟨s, m, e, hm⟩
  case notANumber => exact iff_of_true (.inl rfl) rfl
  all_goals cases s with
  | positive => exact iff_of_true (.inr rfl) rfl
  | negative => exact iff_of_false (by rintro (h | h) <;> cases h) Bool.true_eq_false.mp

/-! ## Packing -/

/-- What bits stand for has their sign, unless it is no number. -/
theorem hasSign_unpack (bits : BitVec spec.numBits) : unpack spec bits = .notANumber ∨
    HasSign (Sign.ofBitVec (unpackSign bits)) (unpack spec bits) := by
  by_cases hone : Float.Model.UnpackedFloat.unpackExponent bits = -1#_
  · rw [unpack_of_ones bits hone]
    split_ifs
    · exact .inr rfl
    · exact .inl rfl
  by_cases hzero : Float.Model.UnpackedFloat.unpackExponent bits = 0#_
  · by_cases hnone : Float.Model.UnpackedFloat.unpackMantissa bits = 0#_
    · rw [unpack_of_zero bits hzero hnone]
      exact .inr rfl
    · obtain ⟨_, hshort⟩ := unpack_of_short bits hzero hnone
      rw [hshort]
      exact .inr rfl
  · obtain ⟨_, hfull⟩ := unpack_of_full bits hone hzero
    rw [hfull]
    exact .inr rfl

/-- Bits without the bit of the sign stand for what has no sign. -/
theorem isUnsigned_unpack {bits : BitVec spec.numBits}
    (h : Sign.ofBitVec (unpackSign bits) = .positive) : IsUnsigned (unpack spec bits) := by
  have hsign := hasSign_unpack bits
  rwa [h] at hsign

/-- Packing adds no sign. -/
theorem IsUnsigned.unpack_pack (h : IsUnsigned u) :
    IsUnsigned (Float.Model.UnpackedFloat.unpack spec (pack spec u)) := by
  have hpacked : ∀ e m, IsUnsigned
      (Float.Model.UnpackedFloat.unpack spec (packComponents spec .positive e m)) :=
    fun e m => isUnsigned_unpack (ofBitVec_unpackSign spec .positive e m)
  obtain rfl | rfl | rfl | ⟨m, e, hm, rfl⟩ := h.cases
  · rw [unpack_notANumber]
    exact .inl rfl
  · rw [unpack_infinity]
    exact .inr rfl
  · rw [unpack_zero]
    exact .inr rfl
  · unfold pack
    dsimp only
    split_ifs
    · exact hpacked _ _
    · exact hpacked _ _
    · exact hpacked _ _

/-! ## Operations -/

/-- An exact sum that is not below zero is not rounded below zero. -/
theorem hasSign_normalize {m : ℤ} (hm : 0 ≤ m) (e : ℤ) :
    HasSign .positive (UnpackedFloat.normalize spec m e .positive) := by
  unfold UnpackedFloat.normalize
  split
  case h_1 hlt =>
    rw [compare_lt_iff_lt] at hlt
    omega
  case h_2 => rfl
  case h_3 => exact hasSign_round _ _ _ _

/-- No square has a sign. -/
theorem isUnsigned_mul_self (spec : Format) (u : UnpackedFloat) : IsUnsigned (u.mul spec u) := by
  rcases u with s | _ | s | ⟨s, m, e, hm⟩
  case notANumber => exact .inl rfl
  all_goals
    cases s <;> first
      | exact .inr rfl
      | exact .inr (hasSign_round _ _ _ _)

/-- A sum of what has no sign has none. -/
theorem IsUnsigned.add (hu : IsUnsigned u) (hv : IsUnsigned v) : IsUnsigned (u.add spec v) := by
  obtain rfl | rfl | rfl | ⟨m, e, hm, rfl⟩ := hu.cases <;>
    obtain rfl | rfl | rfl | ⟨m', e', hm', rfl⟩ := hv.cases <;>
    first
      | exact .inl rfl
      | exact .inr rfl
      | skip
  -- only here a sum is formed at all
  exact .inr (hasSign_normalize (Int.add_nonneg (Int.natCast_nonneg _) (Int.natCast_nonneg _)) _)

/-- The zero that sums start from gives way to either zero. -/
theorem IsUnsigned.negZero_add (h : IsUnsigned u) :
    IsUnsigned ((UnpackedFloat.zero .negative).add spec u) := by
  obtain rfl | rfl | rfl | ⟨m, e, hm, rfl⟩ := h.cases <;>
    first
      | exact .inl rfl
      | exact .inr rfl

/-- A root of what has no sign has none. -/
theorem IsUnsigned.sqrt (h : IsUnsigned u) : IsUnsigned (u.sqrt spec) := by
  obtain rfl | rfl | rfl | ⟨m, e, hm, rfl⟩ := h.cases <;>
    first
      | exact .inl rfl
      | exact .inr rfl
      | exact .inr (hasSign_round _ _ _ _)

/-- A quotient by a finite number of the positive sign keeps the sign. -/
theorem IsUnsigned.div_finite (h : IsUnsigned u) {m : ℕ} {e : ℤ} (hm : 0 < m) :
    IsUnsigned (u.div spec (.finite .positive m e hm)) := by
  obtain rfl | rfl | rfl | ⟨m', e', hm', rfl⟩ := h.cases <;>
    first
      | exact .inl rfl
      | exact .inr rfl
      | exact .inr (hasSign_round _ _ _ _)

end Binary

/-! ## Single precision -/

namespace Single

open Binary (IsUnsigned)

/-- A number stands for what its parts stand for. -/
theorem singleDatum_eq (x : Float32) :
    Number.singleDatum x = Binary.datumOf .binary32 (parts x) :=
  @Binary.decode_eq .binary32 x.toModel.toBits.toBitVec

/-- A bit pattern without the sign bit stands for nothing with a sign. -/
theorem isUnsigned_ofBits {bits : ℕ} (h : bits < 2 ^ 31) :
    IsUnsigned (parts (Float32.ofBits (UInt32.ofNat bits))) := by
  have hsign : @unpackSign .binary32 (UInt32.ofNat bits).toBitVec = 0#1 := by
    apply BitVec.eq_of_toNat_eq
    delta unpackSign
    simp
    omega
  apply IsUnsigned.unpack_pack
  apply Binary.isUnsigned_unpack
  rw [hsign]
  rfl

theorem infinityBits_lt : BinaryFormat.single.infinityBits < 2 ^ 31 := by decide

/-- The pattern of a magnitude leaves the bit of the sign free. -/
theorem encodeMagnitude_lt (r : Number.Ratio) :
    BinaryFormat.single.encodeMagnitude r < 2 ^ 31 := by
  unfold BinaryFormat.encodeMagnitude
  split_ifs
  · exact Nat.two_pow_pos 31
  · exact (min_le_left _ _).trans_lt infinityBits_lt

theorem withSign_false (f : BinaryFormat) (magnitude : ℕ) :
    f.withSign false magnitude = magnitude := if_neg Bool.false_ne_true

/-- Only a negative datum gets the sign bit. -/
theorem encodeDatum_lt {d : Datum} (h : d.isNegative = false) :
    BinaryFormat.single.encodeDatum d < 2 ^ 31 := by
  cases d with
  | nan => decide
  | infinite negative =>
    obtain rfl : negative = false := h
    rw [BinaryFormat.encodeDatum, withSign_false]
    exact infinityBits_lt
  | finite negative m e =>
    obtain rfl : negative = false := h
    rw [BinaryFormat.encodeDatum, BinaryFormat.encode, withSign_false]
    exact encodeMagnitude_lt _

/-- A number that is read without a minus sign has no sign. -/
theorem isUnsigned_singleOfDatum {d : Datum} (h : d.isNegative = false) :
    IsUnsigned (parts (Number.singleOfDatum d)) :=
  isUnsigned_ofBits (encodeDatum_lt h)

/-- What has no sign in double precision has none in single precision. -/
theorem isUnsigned_narrow {x : Float} (h : IsUnsigned (Double.parts x)) :
    IsUnsigned (parts (Number.narrow x)) := by
  apply isUnsigned_singleOfDatum
  rw [Double.doubleDatum_eq, ← Binary.isUnsigned_iff]
  exact h

/-- The diagonal is the root of a sum of squares, in double precision. -/
theorem isUnsigned_hypot (x y : Float32) : IsUnsigned (parts (singleHypot x y)) := by
  have hsquare : ∀ a : Float, IsUnsigned (Double.parts (a * a)) := fun a =>
    (Binary.isUnsigned_mul_self .binary64 (Double.parts a)).unpack_pack
  unfold singleHypot
  split_ifs
  · exact isUnsigned_singleOfDatum rfl
  · apply isUnsigned_narrow
    exact ((hsquare _).add (hsquare _)).unpack_pack.sqrt.unpack_pack

theorem isUnsigned_add {x y : Float32} (hx : IsUnsigned (parts x)) (hy : IsUnsigned (parts y)) :
    IsUnsigned (parts (x + y)) :=
  (hx.add hy).unpack_pack

/-- The length of a vector is the root of a sum of squares. -/
theorem isUnsigned_length (v : Vec3 Float32) : IsUnsigned (parts v.length) := by
  have hsquare : ∀ a : Float32, IsUnsigned (parts (a * a)) := fun a =>
    (Binary.isUnsigned_mul_self .binary32 (parts a)).unpack_pack
  exact (isUnsigned_add (isUnsigned_add (hsquare v.x) (hsquare v.y)) (hsquare v.z)).sqrt.unpack_pack

end Single

end Toolpath
