import Mathlib.Algebra.Order.Group.Int
import Mathlib.Algebra.Order.Group.Synonym
import Mathlib.Algebra.Order.Monoid.Prod
import Toolpath.Proofs.SingleRoundingTheorems

/-!
# The range of single-precision numbers

Negation changes the sign among the parts of a number and nothing else, so it turns the order
around (`Single.neg_lt_neg_iff`, `Single.neg_le_neg_iff`). The finite numbers are those between the
greatest one and its negative (`Single.le_largest`, `Single.neg_largest_le`).
-/

namespace Toolpath

namespace Single

open Float.Model (UnpackedFloat)
open Float.Model.UnpackedFloat (unpack)

/-! ## Negation -/

/-- Negation is exact. -/
theorem parts_neg (x : Float32) : parts (-x) = (parts x).neg := by
  have hneg : parts (-x) = parts (ofParts (parts x).neg) := rfl
  have hparts : parts x = unpack .binary32 x.toModel.toBits.toBitVec := rfl
  have hcases := @Binary.unpack_cases .binary32 (by decide) x.toModel.toBits.toBitVec
  rw [hneg, parts_ofParts, hparts]
  obtain hnan | ⟨s, hinfinity⟩ | ⟨s, hzero⟩ | ⟨s, m, e, h, hfits, hfinite⟩ := hcases
  · rw [hnan]
    exact Binary.unpack_notANumber .binary32
  · rw [hinfinity]
    exact Binary.unpack_infinity .binary32 (-s)
  · rw [hzero]
    exact Binary.unpack_zero .binary32 (-s)
  · rw [hfinite]
    exact Binary.unpack_pack (-s) h hfits

/-- A number and its negative have opposite ranks. -/
theorem rank_neg (u : UnpackedFloat) : rank u.neg = -rank u := by
  rcases u with s | _ | s | ⟨s, m, e, hm⟩ <;> (try cases s) <;> try rfl
  case finite.negative =>
    show toLex ((1 : ℤ), toLex (e, (m : ℤ))) = toLex (-(-1), toLex (-(-e), -(-(m : ℤ))))
    rw [neg_neg, neg_neg, neg_neg]

/-- What is no number is so with either sign. -/
theorem neg_eq_notANumber_iff (u : UnpackedFloat) : u.neg = .notANumber ↔ u = .notANumber := by
  cases u with
  | notANumber => exact Iff.rfl
  | infinity s => exact iff_of_false nofun nofun
  | zero s => exact iff_of_false nofun nofun
  | finite s m e hm => exact iff_of_false nofun nofun

protected theorem neg_lt_neg_iff (x y : Float32) : -x < -y ↔ y < x := by
  rw [lt_iff, lt_iff, parts_neg, parts_neg, rank_neg, rank_neg, neg_lt_neg_iff, ne_eq, ne_eq,
    neg_eq_notANumber_iff, neg_eq_notANumber_iff]
  tauto

protected theorem neg_le_neg_iff (x y : Float32) : -x ≤ -y ↔ y ≤ x := by
  rw [le_iff, le_iff, parts_neg, parts_neg, rank_neg, rank_neg, neg_le_neg_iff, ne_eq, ne_eq,
    neg_eq_notANumber_iff, neg_eq_notANumber_iff]
  tauto

/-- The negative of a finite number is finite. -/
theorem isFinite_neg (x : Float32) : Scalar.isFinite (-x) = Scalar.isFinite x := by
  show (parts (-x)).isFinite = (parts x).isFinite
  rw [parts_neg]
  cases parts x <;> rfl

/-! ## The greatest number -/

/-- The greatest number has the greatest mantissa and the greatest exponent. -/
theorem largest_eq : (Scalar.largest : Float32) =
    ofParts (.finite .positive (2 ^ 24 - 1) 104 (by decide)) := by
  decide +kernel

theorem rank_largest : rank (parts (Scalar.largest : Float32)) =
    toLex (1, toLex (104, 2 ^ 24 - 1)) := by
  rw [largest_eq, parts_ofParts]
  rfl

theorem isFinite_largest : Scalar.isFinite (Scalar.largest : Float32) = true := by
  decide +kernel

theorem neg_neg_largest : -(-Scalar.largest) = (Scalar.largest : Float32) := by decide +kernel

/-- The greatest number is not the least one. -/
theorem not_largest_le : ¬ (Scalar.largest : Float32) ≤ -Scalar.largest := by decide +kernel

/-- A finite value has at most the greatest exponent and the greatest mantissa. -/
theorem rank_le_of_isFinite {u : UnpackedFloat} (h : u.isFinite = true) (hu : IsCanonical u) :
    rank u ≤ toLex (1, toLex (104, 2 ^ 24 - 1)) := by
  rcases u with s | _ | s | ⟨s, m, e, hm⟩ <;> (try cases s) <;> try contradiction
  case finite.positive =>
    obtain ⟨hfits, -, he, -⟩ := hu
    dsimp only [rank]
    rw [Prod.Lex.toLex_le_toLex, Prod.Lex.toLex_le_toLex]
    dsimp only
    omega
  -- all others are zero or below
  all_goals
    dsimp only [rank]
    simp [Prod.Lex.toLex_le_toLex]

/-- No finite number is above the greatest one. -/
theorem le_largest {x : Float32} (h : Scalar.isFinite x = true) : x ≤ Scalar.largest := by
  rw [le_iff, rank_largest]
  have hlargest : Scalar.IsNumber (Scalar.largest : Float32) :=
    Scalar.Rounding.isNumber_of_isFinite _ isFinite_largest
  exact ⟨ne_of_isFinite h, isNumber_iff.1 hlargest, rank_le_of_isFinite h (isCanonical_parts x)⟩

/-- The negative of a finite number is at most the greatest one. -/
theorem neg_largest_le {x : Float32} (h : Scalar.isFinite x = true) : -Scalar.largest ≤ x := by
  have hneg := le_largest ((isFinite_neg x).trans h)
  rw [← neg_neg_largest, Single.neg_le_neg_iff] at hneg
  exact hneg

end Single

end Toolpath
