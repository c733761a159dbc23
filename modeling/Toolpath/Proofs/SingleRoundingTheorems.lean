import Toolpath.Proofs.RoundingTheorems
import Toolpath.Proofs.SignTheorems

/-!
# Signs and classes of single-precision results

Single-precision arithmetic obeys the rules of `Scalar.Rounding`. Each rule is first a fact about
the parts of the operands: the class and the sign of a sum, a product, a quotient or a root follow
from those of its operands (`Single.not_isBelow_add`, `Single.isAbove_sub` and so on). Packing then
keeps them.
-/

namespace Toolpath

namespace Single

open Float.Model (Format UnpackedFloat totalExponent)
open Float.Model.UnpackedFloat (Sign Accuracy roundWithAccuracy sqrtCore)

/-! ## Comparisons with zero -/

theorem parts_zero : parts (0.0 : Float32) = .zero .positive := by rfl

theorem parts_two : parts (2.0 : Float32) = .finite .positive (2 ^ 23) (-22) (by decide) := by rfl

/-- Below zero are the ranks of what has the negative sign and is no zero. -/
theorem rank_lt_zero_iff (u : UnpackedFloat) :
    rank u < rank (.zero .positive) ↔ IsBelow u := by
  rcases u with s | _ | s | ⟨s, m, e, hm⟩ <;> (try cases s) <;> dsimp only [rank, IsBelow] <;>
    simp [Prod.Lex.toLex_lt_toLex]

/-- Above zero are the ranks of what has the positive sign and is no zero. -/
theorem zero_lt_rank_iff (u : UnpackedFloat) :
    rank (.zero .positive) < rank u ↔ IsAbove u := by
  rcases u with s | _ | s | ⟨s, m, e, hm⟩ <;> (try cases s) <;> dsimp only [rank, IsAbove] <;>
    simp [Prod.Lex.toLex_lt_toLex]

theorem IsBelow.ne {u : UnpackedFloat} (h : IsBelow u) : u ≠ .notANumber := by
  rintro rfl
  exact h

theorem IsAbove.ne {u : UnpackedFloat} (h : IsAbove u) : u ≠ .notANumber := by
  rintro rfl
  exact h

/-- A number is below zero if its parts are. -/
theorem lt_zero_iff (x : Float32) : x < 0.0 ↔ IsBelow (parts x) := by
  rw [lt_iff, parts_zero, rank_lt_zero_iff]
  constructor
  · exact fun h => h.2.2
  · exact fun h => ⟨h.ne, by simp, h⟩

/-- A number is above zero if its parts are. -/
theorem zero_lt_iff (x : Float32) : (0.0 : Float32) < x ↔ IsAbove (parts x) := by
  rw [lt_iff, parts_zero, zero_lt_rank_iff]
  constructor
  · exact fun h => h.2.2
  · exact fun h => ⟨by simp, h.ne, h⟩

/-- Zero is not above a number that is not below it. -/
theorem zero_le_iff (x : Float32) :
    (0.0 : Float32) ≤ x ↔ parts x ≠ .notANumber ∧ ¬ IsBelow (parts x) := by
  rw [le_iff, parts_zero, ← rank_lt_zero_iff, not_lt]
  simp

/-- Zero is not below a number that is not above it. -/
theorem le_zero_iff (x : Float32) :
    x ≤ (0.0 : Float32) ↔ parts x ≠ .notANumber ∧ ¬ IsAbove (parts x) := by
  rw [le_iff, parts_zero, ← zero_lt_rank_iff, not_lt]
  simp

/-- What is no number, or has parts that are not below zero, is not below zero. -/
theorem nonneg_iff (x : Float32) : Scalar.Nonneg x ↔ ¬ IsBelow (parts x) := by
  rw [Scalar.Nonneg, lt_zero_iff]

theorem ne_of_isFinite {u : UnpackedFloat} (h : u.isFinite = true) : u ≠ .notANumber := by
  rintro rfl
  contradiction

/-- Between zero and a finite value there are only finite ones. -/
theorem isFinite_of_rank_le {u v : UnpackedFloat} (hu : u ≠ .notANumber) (hu' : ¬ IsBelow u)
    (h : rank u ≤ rank v) (hv : v.isFinite = true) : u.isFinite = true := by
  rcases u with s | _ | s | ⟨s, m, e, hm⟩ <;> rcases v with t | _ | t | ⟨t, m', e', hm'⟩ <;>
    (try cases s) <;> (try cases t) <;>
    first
      | contradiction
      | rfl
      | exact (hu' trivial).elim

/-! ## Signs -/

/-- The negative of what is below zero is not. -/
theorem not_isBelow_neg {u : UnpackedFloat} (h : IsBelow u) : ¬ IsBelow u.neg := by
  rcases u with s | _ | s | ⟨s, m, e, hm⟩ <;> (try cases s) <;>
    first
      | exact id
      | exact h.elim

/-- No magnitude is below zero. -/
theorem not_isBelow_abs (u : UnpackedFloat) : ¬ IsBelow u.abs := by
  cases u <;> exact id

/-- The magnitude of a number is a number. -/
theorem exists_sign_abs {u : UnpackedFloat} (h : u ≠ .notANumber) : ∃ s, HasSign s u.abs := by
  cases u <;>
    first
      | contradiction
      | exact ⟨_, rfl⟩

/-! ## Sums -/

/-- An exact sum is rounded to a number. -/
theorem exists_sign_normalize (m : ℤ) (e : ℤ) :
    ∃ s, HasSign s (UnpackedFloat.normalize .binary32 m e .positive) := by
  unfold UnpackedFloat.normalize
  split
  · exact ⟨_, hasSign_round _ _ _ _⟩
  · exact ⟨_, rfl⟩
  · exact ⟨_, hasSign_round _ _ _ _⟩

/-- A sum of what is not below zero is not below it. -/
theorem not_isBelow_add {u v : UnpackedFloat} (hu : ¬ IsBelow u) (hv : ¬ IsBelow v) :
    ¬ IsBelow (u.add .binary32 v) := by
  rcases u with s | _ | s | ⟨s, m, e, hm⟩ <;> rcases v with t | _ | t | ⟨t, m', e', hm'⟩ <;>
    (try cases s) <;> (try cases t) <;>
    first
      | exact id
      | exact (hu trivial).elim
      | exact (hv trivial).elim
      | skip
  -- only here a sum is formed at all
  case finite.finite.positive.positive =>
    apply HasSign.not_isBelow
    apply Binary.hasSign_normalize
    exact Int.add_nonneg (Int.natCast_nonneg _) (Int.natCast_nonneg _)

/-- Only infinities of opposite signs have no sum. -/
theorem exists_sign_add {u v : UnpackedFloat} (hu : u ≠ .notANumber) (hv : v ≠ .notANumber)
    (hu' : ¬ IsBelow u) (hv' : ¬ IsBelow v) : ∃ s, HasSign s (u.add .binary32 v) := by
  rcases u with s | _ | s | ⟨s, m, e, hm⟩ <;> rcases v with t | _ | t | ⟨t, m', e', hm'⟩ <;>
    (try cases s) <;> (try cases t) <;>
    first
      | contradiction
      | exact (hu' trivial).elim
      | exact (hv' trivial).elim
      | exact ⟨_, rfl⟩
      | exact exists_sign_normalize _ _

/-- Only infinities of one sign have no difference. -/
theorem exists_sign_sub {u v : UnpackedFloat} (hu : u ≠ .notANumber) (hv : v ≠ .notANumber)
    (h : u.isFinite = true ∨ v.isFinite = true) : ∃ s, HasSign s (u.sub .binary32 v) := by
  rcases u with s | _ | s | ⟨s, m, e, hm⟩ <;> rcases v with t | _ | t | ⟨t, m', e', hm'⟩ <;>
    (try cases s) <;> (try cases t) <;>
    first
      | contradiction
      | exact ⟨_, rfl⟩
      | exact exists_sign_normalize _ _

/-- Of two finite values the one with the greater exponent is the greater, and of two with one
exponent the one with the greater mantissa. -/
theorem mantissa_lt {m m' : ℕ} {e e' d : ℤ} (hfits : m < 2 ^ 24) (he : -149 ≤ e)
    (hfull : 2 ^ 23 ≤ m' ∨ e' = -149) (hd : d ≤ e) (h : e < e' ∨ e = e' ∧ m < m') :
    m <<< (e - d).toNat < m' <<< (e' - d).toNat := by
  obtain ⟨j, hj⟩ : ∃ j : ℕ, (e' - d).toNat = j + (e - d).toNat := ⟨(e' - e).toNat, by omega⟩
  rw [Nat.shiftLeft_eq, Nat.shiftLeft_eq, hj, pow_add, ← mul_assoc]
  apply Nat.mul_lt_mul_of_pos_right _ (Nat.two_pow_pos _)
  -- a full mantissa shifted once exceeds every mantissa that fits
  rcases h with h | ⟨rfl, h⟩
  · calc m < 2 ^ 23 * 2 := hfits
      _ ≤ m' * 2 := Nat.mul_le_mul_right 2 (by omega)
      _ ≤ m' * 2 ^ j := Nat.mul_le_mul_left m' (Nat.le_self_pow (by omega) 2)
  · calc m < m' * 1 := by omega
      _ ≤ m' * 2 ^ j := Nat.mul_le_mul_left m' (Nat.two_pow_pos j)

/-- An exact sum above zero, at an exponent the format has, is not rounded to zero. -/
theorem isAbove_normalize {m : ℤ} {e : ℤ} (hm : 0 < m) (he : -149 ≤ e) :
    IsAbove (parts (ofParts (UnpackedFloat.normalize .binary32 m e .positive))) := by
  have hmin : Format.binary32.minExponent = -149 := rfl
  unfold UnpackedFloat.normalize
  rw [compare_gt_iff_gt.2 hm]
  dsimp only [UnpackedFloat.round, UnpackedFloat.decreaseExponent]
  -- lowering the exponent to the one aimed at leaves it one that the format has
  have htarget : (-149 : ℤ) ≤ Format.binary32.targetExponent (totalExponent m.toNat e) := by
    rw [← hmin]
    exact le_max_right _ _
  generalize Format.binary32.targetExponent (totalExponent m.toNat e) = target at htarget ⊢
  have hpos : 0 < m.toNat <<< (e - target).toNat := by
    rw [Nat.shiftLeft_eq]
    exact Nat.mul_pos (by omega) (Nat.two_pow_pos _)
  obtain ⟨m', e', hm', hround, hfits, hleast⟩ :=
    exists_round (e := e - ((e - target).toNat : ℤ)) hpos (by omega) .positive .exact
  rw [hround]
  exact isAbove_ofParts hm' hfits hleast

/-- The difference of a greater and a lesser value is above zero. -/
theorem isAbove_sub {u v : UnpackedFloat} (hu : u ≠ .notANumber) (hv : v ≠ .notANumber)
    (hu' : IsCanonical u) (hv' : IsCanonical v) (h : rank u < rank v) :
    IsAbove (parts (ofParts (v.sub .binary32 u))) := by
  have hinfinite : IsAbove (parts (ofParts (.infinity .positive))) := trivial
  rcases u with s | _ | s | ⟨s, m, e, hm⟩ <;> rcases v with t | _ | t | ⟨t, m', e', hm'⟩ <;>
    (try cases s) <;> (try cases t) <;> try contradiction
  -- two finite values, unless only the lesser is below zero
  case finite.finite.negative.negative =>
    obtain ⟨-, he, -, hfull⟩ := hu'
    obtain ⟨hfits, he', -, -⟩ := hv'
    dsimp only [rank] at h
    simp only [Prod.Lex.toLex_lt_toLex] at h
    have hlt := mantissa_lt hfits he' hfull (min_le_left e' e) (by omega)
    apply isAbove_normalize _ (le_min he' he)
    simp only [Sign.apply]
    omega
  case finite.finite.negative.positive =>
    apply isAbove_normalize _ (le_min hv'.2.1 hu'.2.1)
    simp only [Sign.apply, sub_neg_eq_add, Nat.shiftLeft_eq]
    positivity
  case finite.finite.positive.positive =>
    obtain ⟨hfits, he, -, -⟩ := hu'
    obtain ⟨-, he', -, hfull⟩ := hv'
    dsimp only [rank] at h
    simp only [Prod.Lex.toLex_lt_toLex] at h
    have hlt := mantissa_lt hfits he hfull (min_le_right e' e) (by omega)
    apply isAbove_normalize _ (le_min he' he)
    simp only [Sign.apply]
    omega
  -- one of the two is zero
  case finite.zero.negative.negative => exact isAbove_ofParts hm hu'.1 hu'.2.1
  case finite.zero.negative.positive => exact isAbove_ofParts hm hu'.1 hu'.2.1
  case zero.finite.negative.positive => exact isAbove_ofParts hm' hv'.1 hv'.2.1
  case zero.finite.positive.positive => exact isAbove_ofParts hm' hv'.1 hv'.2.1
  -- the difference is infinite
  all_goals exact hinfinite

/-! ## Products and quotients -/

/-- A magnitude is not rounded to below zero. -/
theorem not_isBelow_round (m : ℕ) (e : ℤ) (a : Accuracy) :
    ¬ IsBelow (roundWithAccuracy .binary32 .positive m e a) := (hasSign_round _ _ _ _).not_isBelow

/-- A product of what is not below zero is not below it. -/
theorem not_isBelow_mul {u v : UnpackedFloat} (hu : ¬ IsBelow u) (hv : ¬ IsBelow v) :
    ¬ IsBelow (u.mul .binary32 v) := by
  rcases u with s | _ | s | ⟨s, m, e, hm⟩ <;> rcases v with t | _ | t | ⟨t, m', e', hm'⟩ <;>
    (try cases s) <;> (try cases t) <;>
    first
      | exact id
      | exact (hu trivial).elim
      | exact (hv trivial).elim
      | exact not_isBelow_round _ _ _

/-- The sign of a square is positive. -/
theorem not_isBelow_mul_self (u : UnpackedFloat) : ¬ IsBelow (u.mul .binary32 u) := by
  rcases u with s | _ | s | ⟨s, m, e, hm⟩ <;> (try cases s) <;>
    first
      | exact id
      | exact not_isBelow_round _ _ _

/-- Only an infinity and a zero have no product. -/
theorem exists_sign_mul {u v : UnpackedFloat} (hu : IsAbove u) (hu' : u.isFinite = true)
    (hv : v ≠ .notANumber) : ∃ s, HasSign s (u.mul .binary32 v) := by
  rcases u with s | _ | s | ⟨s, m, e, hm⟩ <;> rcases v with t | _ | t | ⟨t, m', e', hm'⟩ <;>
    (try cases s) <;> (try cases t) <;>
    first
      | contradiction
      | exact ⟨_, rfl⟩
      | exact ⟨_, hasSign_round _ _ _ _⟩

/-- The square of a number is a number. -/
theorem exists_sign_mul_self {u : UnpackedFloat} (hu : u ≠ .notANumber) :
    ∃ s, HasSign s (u.mul .binary32 u) := by
  rcases u with s | _ | s | ⟨s, m, e, hm⟩ <;> (try cases s) <;>
    first
      | contradiction
      | exact ⟨_, rfl⟩
      | exact ⟨_, hasSign_round _ _ _ _⟩

/-- A quotient of what is not below zero by what is above it is not below it. -/
theorem not_isBelow_div {u v : UnpackedFloat} (hu : ¬ IsBelow u)
    (hv : v = .notANumber ∨ IsAbove v) : ¬ IsBelow (u.div .binary32 v) := by
  rcases hv with rfl | hv
  · rcases u with s | _ | s | ⟨s, m, e, hm⟩ <;> exact id
  · rcases u with s | _ | s | ⟨s, m, e, hm⟩ <;> rcases v with t | _ | t | ⟨t, m', e', hm'⟩ <;>
      (try cases s) <;> (try cases t) <;>
      first
        | contradiction
        | exact id
        | exact (hu trivial).elim
        | exact not_isBelow_round _ _ _

/-- Only two infinities and two zeros have no quotient. -/
theorem exists_sign_div {u v : UnpackedFloat} (hu : u ≠ .notANumber) (hv : IsAbove v)
    (hv' : v.isFinite = true) : ∃ s, HasSign s (u.div .binary32 v) := by
  rcases u with s | _ | s | ⟨s, m, e, hm⟩ <;> rcases v with t | _ | t | ⟨t, m', e', hm'⟩ <;>
    (try cases s) <;> (try cases t) <;>
    first
      | contradiction
      | exact ⟨_, rfl⟩
      | exact ⟨_, hasSign_round _ _ _ _⟩

/-- Twice a value above zero is above zero. -/
theorem isAbove_double {u : UnpackedFloat} (hu : IsAbove u) (hu' : IsCanonical u) :
    IsAbove (parts (ofParts ((parts (2.0 : Float32)).mul .binary32 u))) := by
  rw [parts_two]
  rcases u with s | _ | s | ⟨s, m, e, hm⟩ <;> (try cases s) <;> try contradiction
  · trivial
  · obtain ⟨-, he, -, -⟩ := hu'
    have hlog : 23 ≤ (2 ^ 23 * m).log2 :=
      (Nat.le_log2 (by positivity)).2 (Nat.le_mul_of_pos_right _ hm)
    obtain ⟨m', e', hm', hround, hfits, hleast⟩ :=
      exists_round (m := 2 ^ 23 * m) (e := -22 + e) (by positivity) (by omega) .positive .exact
    show IsAbove (parts (ofParts (roundWithAccuracy .binary32 .positive _ _ .exact)))
    rw [hround]
    exact isAbove_ofParts hm' hfits hleast

/-- Twice a value that is not finite is not finite either. -/
theorem isFinite_of_double {u : UnpackedFloat}
    (h : (parts (ofParts ((parts (2.0 : Float32)).mul .binary32 u))).isFinite = true) :
    u.isFinite = true := by
  rw [parts_two] at h
  rcases u with s | _ | s | ⟨s, m, e, hm⟩ <;> (try cases s) <;>
    first
      | rfl
      | contradiction

/-! ## Roots -/

/-- No root is below zero. -/
theorem not_isBelow_sqrt (u : UnpackedFloat) : ¬ IsBelow (u.sqrt .binary32) := by
  rcases u with s | _ | s | ⟨s, m, e, hm⟩ <;> (try cases s) <;>
    first
      | exact id
      | exact not_isBelow_round _ _ _

/-- What is not below zero has a root. -/
theorem exists_sign_sqrt {u : UnpackedFloat} (hu : u ≠ .notANumber) (hu' : ¬ IsBelow u) :
    ∃ s, HasSign s (u.sqrt .binary32) := by
  rcases u with s | _ | s | ⟨s, m, e, hm⟩ <;> (try cases s) <;>
    first
      | contradiction
      | exact (hu' trivial).elim
      | exact ⟨_, rfl⟩
      | exact ⟨_, hasSign_round _ _ _ _⟩

/-- A root has half the bits of its square. -/
theorem log2_sqrt_lt {n k : ℕ} (h : n < 2 ^ k) (hk : 0 < k) : 2 * n.sqrt.log2 < k := by
  by_cases hzero : n.sqrt = 0
  · rw [hzero]
    exact hk
  · have hlt : 2 ^ (2 * n.sqrt.log2) < 2 ^ k := by
      calc 2 ^ (2 * n.sqrt.log2) = 2 ^ n.sqrt.log2 * 2 ^ n.sqrt.log2 := by rw [two_mul, pow_add]
        _ ≤ n.sqrt * n.sqrt := Nat.mul_le_mul (Nat.log2_self_le hzero) (Nat.log2_self_le hzero)
        _ ≤ n := Nat.sqrt_le n
        _ < 2 ^ k := h
    exact (Nat.pow_lt_pow_iff_right (by decide)).1 hlt

/-- The leading bit of a root has half the exponent, and so has the last one or less. -/
theorem sqrtCore_le {m : ℕ} {e : ℤ} (hfits : m < 2 ^ 24) (he : e ≤ 104) :
    ((sqrtCore .binary32 m e).1.log2 : ℤ) + (sqrtCore .binary32 m e).2.1 ≤ 63 ∧
      (sqrtCore .binary32 m e).2.1 ≤ 52 := by
  unfold sqrtCore
  dsimp only
  -- all that matters of the exponent of the root is that it is at most half
  generalize hd : min (e.ediv 2) _ = d
  have hhalf : 2 * d ≤ e := by
    have hle : d ≤ e / 2 := by
      rw [← hd]
      exact min_le_left _ _
    omega
  have hlt : m <<< (e - 2 * d).toNat < 2 ^ (24 + (e - 2 * d).toNat) := by
    rw [Nat.shiftLeft_eq, pow_add]
    exact Nat.mul_lt_mul_of_pos_right hfits (Nat.two_pow_pos _)
  have hroot := log2_sqrt_lt hlt (by omega)
  exact ⟨by omega, by omega⟩

/-- The root of a finite value is finite. -/
theorem isFinite_sqrt {u : UnpackedFloat} (hu : u.isFinite = true) (hu' : ¬ IsBelow u)
    (hu'' : IsCanonical u) : (parts (ofParts (u.sqrt .binary32))).isFinite = true := by
  rcases u with s | _ | s | ⟨s, m, e, hm⟩ <;> (try cases s) <;> try contradiction
  · rfl
  · rfl
  · exact (hu' trivial).elim
  · obtain ⟨hfits, -, he, -⟩ := hu''
    obtain ⟨hlog, hle⟩ := sqrtCore_le hfits he
    show (parts (ofParts (roundWithAccuracy .binary32 .positive (sqrtCore .binary32 m e).1
      (sqrtCore .binary32 m e).2.1 (sqrtCore .binary32 m e).2.2))).isFinite = true
    exact isFinite_round (by omega) (by omega)

/-! ## The rules -/

/-- What has a sign is packed to a number. -/
theorem isNumber_ofParts {u : UnpackedFloat} (h : ∃ s, HasSign s u) :
    Scalar.IsNumber (ofParts u) := by
  obtain ⟨s, hs⟩ := h
  exact isNumber_iff.2 (hasSign_ofParts hs).ne

/-- What is not below zero is packed to what is not below it. -/
theorem nonneg_ofParts {u : UnpackedFloat} (h : ¬ IsBelow u) : Scalar.Nonneg (ofParts u) :=
  (nonneg_iff _).2 (not_isBelow_ofParts h)

/-- The difference of two numbers in order is above zero. -/
theorem zero_lt_sub {x y : Float32} (h : x < y) : 0.0 < y - x := by
  rw [lt_iff] at h
  exact (zero_lt_iff _).2
    (isAbove_sub h.1 h.2.1 (isCanonical_parts x) (isCanonical_parts y) h.2.2)

instance : Scalar.Rounding Float32 where
  zero_le_short := by decide +kernel
  zero_le_share := by decide +kernel
  zero_le_two := by decide +kernel
  nonneg_add x y hx hy :=
    nonneg_ofParts (not_isBelow_add ((nonneg_iff x).1 hx) ((nonneg_iff y).1 hy))
  nonneg_mul x y hx hy :=
    nonneg_ofParts (not_isBelow_mul ((nonneg_iff x).1 hx) ((nonneg_iff y).1 hy))
  nonneg_mul_self x := nonneg_ofParts (not_isBelow_mul_self (parts x))
  nonneg_div x y hx hy := by
    rw [le_zero_iff] at hy
    apply nonneg_ofParts
    apply not_isBelow_div ((nonneg_iff x).1 hx)
    tauto
  nonneg_neg x hx := by
    rw [lt_zero_iff] at hx
    exact nonneg_ofParts (not_isBelow_neg hx)
  nonneg_abs x := nonneg_ofParts (not_isBelow_abs (parts x))
  nonneg_sqrt x := nonneg_ofParts (not_isBelow_sqrt (parts x))
  nonneg_hypot x y := (nonneg_iff _).2 (isUnsigned_hypot x y).not_isBelow
  zero_le_sub _ _ h := Scalar.num_le_of_lt (zero_lt_sub h)
  zero_lt_double x hx :=
    (zero_lt_iff _).2 (isAbove_double ((zero_lt_iff x).1 hx) (isCanonical_parts x))
  isNumber_add x y hx hy := by
    rw [zero_le_iff] at hx hy
    exact isNumber_ofParts (exists_sign_add hx.1 hy.1 hx.2 hy.2)
  isNumber_sub x y hx hy :=
    isNumber_ofParts (exists_sign_sub (ne_of_isFinite hx) (isNumber_iff.1 hy) (.inl hx))
  isNumber_mul x y hx hx' hy :=
    isNumber_ofParts (exists_sign_mul ((zero_lt_iff x).1 hx) hx' (isNumber_iff.1 hy))
  isNumber_mul_self x hx := isNumber_ofParts (exists_sign_mul_self (isNumber_iff.1 hx))
  isNumber_div x y hx hy hy' :=
    isNumber_ofParts (exists_sign_div (isNumber_iff.1 hx) ((zero_lt_iff y).1 hy) hy')
  isNumber_abs x hx := isNumber_ofParts (exists_sign_abs (isNumber_iff.1 hx))
  isNumber_sqrt x hx := by
    rw [zero_le_iff] at hx
    exact isNumber_ofParts (exists_sign_sqrt hx.1 hx.2)
  isNumber_of_isFinite x hx := isNumber_iff.2 (ne_of_isFinite hx)
  isFinite_of_le x y hx hxy hy := by
    rw [zero_le_iff] at hx
    rw [le_iff] at hxy
    exact isFinite_of_rank_le hx.1 hx.2 hxy.2.2 hy
  isFinite_sqrt x hx hx' :=
    isFinite_sqrt hx' ((zero_le_iff x).1 hx).2 (isCanonical_parts x)
  isFinite_of_double x h := isFinite_of_double h

instance : Scalar.Gradual Float32 where
  zero_lt_sub _ _ h := zero_lt_sub h

end Single

end Toolpath
