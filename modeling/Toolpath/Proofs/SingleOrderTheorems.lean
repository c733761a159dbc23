import Mathlib.Data.Prod.Lex
import Mathlib.Tactic.Tauto
import Toolpath.Scalar.Single
import Toolpath.Proofs.OrderTheorems

/-!
# The order of single-precision numbers

A single-precision number is read through its parts: its class, sign, mantissa and exponent.
Comparisons of two numbers are those of their ranks, from the negative infinity to the positive
one, with a mantissa counting less than its exponent and both less than the sign
(`Single.compare_eq`). Only the value that is no number has no place in that order, so
`Scalar.NumberOrder` holds of single-precision numbers.
-/

namespace Toolpath

/-! ## Comparisons -/

/-- Two comparisons come out the same where both orders agree. -/
theorem compare_congr {β γ : Type} [LinearOrder β] [LinearOrder γ] {a b : β} {c d : γ}
    (hlt : a < b ↔ c < d) (hgt : b < a ↔ d < c) : compare a b = compare c d := by
  rcases lt_trichotomy a b with h | h | h
  · rw [compare_lt_iff_lt.2 h, compare_lt_iff_lt.2 (hlt.1 h)]
  · have heq : c = d := by
      apply le_antisymm
      · exact not_lt.1 fun hd => (hgt.2 hd).ne' h
      · exact not_lt.1 fun hc => (hlt.2 hc).ne h
    rw [compare_eq_iff_eq.2 h, compare_eq_iff_eq.2 heq]
  · rw [compare_gt_iff_gt.2 h, compare_gt_iff_gt.2 (hgt.1 h)]

/-- Pairs are compared by their first parts, and by their second ones where these are equal. -/
theorem compare_toLex {β γ : Type} [LinearOrder β] [LinearOrder γ] (a a' : β) (b b' : γ) :
    compare (toLex (a, b)) (toLex (a', b')) = (compare a a').then (compare b b') := by
  have hlt : ∀ {c c' : β} {d d' : γ}, toLex (c, d) < toLex (c', d') ↔ c < c' ∨ c = c' ∧ d < d' :=
    Prod.Lex.toLex_lt_toLex
  -- the second parts count only where the first are equal
  rcases lt_trichotomy a a' with h | rfl | h
  · rw [compare_lt_iff_lt.2 h, compare_lt_iff_lt.2 (hlt.2 (.inl h))]
    rfl
  · rw [compare_eq_iff_eq.2 (rfl : a = a)]
    apply compare_congr
    · simp [hlt]
    · simp [hlt]
  · rw [compare_gt_iff_gt.2 h, compare_gt_iff_gt.2 (hlt.2 (.inl h))]
    rfl

namespace Single

open Float.Model (UnpackedFloat)

/-- The class of a number with its sign, mantissa and exponent. -/
def parts (x : Float32) : UnpackedFloat := x.toModel.unpack

/-- The place of a value in the order. -/
def rank : UnpackedFloat → ℤ ×ₗ ℤ ×ₗ ℤ
  | .infinity .negative => toLex (-2, toLex (0, 0))
  | .finite .negative m e _ => toLex (-1, toLex (-e, -m))
  | .notANumber => toLex (0, toLex (0, 0))
  | .zero _ => toLex (0, toLex (0, 0))
  | .finite .positive m e _ => toLex (1, toLex (e, m))
  | .infinity .positive => toLex (2, toLex (0, 0))

/-- Numbers are compared by their ranks. -/
theorem compare_eq {u v : UnpackedFloat} (hu : u ≠ .notANumber) (hv : v ≠ .notANumber) :
    u.compare v = some (compare (rank u) (rank v)) := by
  rcases u with s | _ | s | ⟨s, m, e, hm⟩ <;> rcases v with t | _ | t | ⟨t, m', e', hm'⟩ <;>
    (try cases s) <;> (try cases t) <;> try contradiction
  -- the class and the sign decide, unless both numbers are finite and have one sign
  all_goals try rfl
  case finite.finite.positive.positive =>
    have hmantissa : compare m m' = compare (m : ℤ) (m' : ℤ) := compare_congr (by omega) (by omega)
    dsimp only [UnpackedFloat.compare, rank]
    rw [compare_toLex, compare_toLex, hmantissa]
    rfl
  case finite.finite.negative.negative =>
    have hexponent : (compare e e').swap = compare (-e) (-e') := by
      rw [Int.compare_swap]
      exact compare_congr (by omega) (by omega)
    have hmantissa : (compare m m').swap = compare (-(m : ℤ)) (-(m' : ℤ)) := by
      rw [Nat.compare_swap]
      exact compare_congr (by omega) (by omega)
    dsimp only [UnpackedFloat.compare, rank]
    rw [compare_toLex, compare_toLex, Ordering.swap_then, hexponent, hmantissa]
    rfl

/-- What is no number is compared with nothing. -/
theorem compare_eq_none {u v : UnpackedFloat} (h : u = .notANumber ∨ v = .notANumber) :
    u.compare v = none := by
  rcases h with rfl | rfl
  · rfl
  · cases u <;> rfl

theorem le_iff (x y : Float32) : x ≤ y ↔
    parts x ≠ .notANumber ∧ parts y ≠ .notANumber ∧ rank (parts x) ≤ rank (parts y) := by
  have hle : x ≤ y ↔ ((parts x).compare (parts y)).any (·.isLE) = true := decide_eq_true_iff
  rw [hle]
  by_cases hnan : parts x = .notANumber ∨ parts y = .notANumber
  · rw [compare_eq_none hnan]
    simp
    tauto
  · push Not at hnan
    rw [compare_eq hnan.1 hnan.2, Option.any_some, Ordering.isLE_iff_ne_gt, ne_eq,
      compare_gt_iff_gt, not_lt]
    tauto

theorem lt_iff (x y : Float32) : x < y ↔
    parts x ≠ .notANumber ∧ parts y ≠ .notANumber ∧ rank (parts x) < rank (parts y) := by
  have hlt : x < y ↔ ((parts x).compare (parts y) == some .lt) = true := decide_eq_true_iff
  rw [hlt]
  by_cases hnan : parts x = .notANumber ∨ parts y = .notANumber
  · rw [compare_eq_none hnan]
    simp
    tauto
  · push Not at hnan
    rw [compare_eq hnan.1 hnan.2, beq_iff_eq, Option.some_inj, compare_lt_iff_lt]
    tauto

theorem isNumber_iff {x : Float32} : Scalar.IsNumber x ↔ parts x ≠ .notANumber := by
  rw [Scalar.IsNumber, le_iff]
  tauto

instance : Scalar.NumberOrder Float32 where
  lt_iff x y := by
    rw [lt_iff, le_iff, le_iff]
    constructor
    · rintro ⟨hx, hy, h⟩
      exact ⟨⟨hx, hy, h.le⟩, fun h' => not_le.2 h h'.2.2⟩
    · rintro ⟨⟨hx, hy, -⟩, h'⟩
      exact ⟨hx, hy, not_le.1 fun h => h' ⟨hy, hx, h⟩⟩
  le_trans x y z hxy hyz := by
    rw [le_iff] at *
    exact ⟨hxy.1, hyz.2.1, hxy.2.2.trans hyz.2.2⟩
  le_total x y hx hy := by
    rw [isNumber_iff] at hx hy
    simp only [le_iff]
    rcases le_total (rank (parts x)) (rank (parts y)) with h | h
    · exact .inl ⟨hx, hy, h⟩
    · exact .inr ⟨hy, hx, h⟩
  isNumber_left x y h := isNumber_iff.2 ((le_iff x y).1 h).1
  isNumber_right x y h := isNumber_iff.2 ((le_iff x y).1 h).2.1

end Single

end Toolpath
