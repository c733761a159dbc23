import Toolpath.Scalar.Real
import Toolpath.Proofs.AbsorptionTheorems
import Toolpath.Proofs.DatumTheorems
import Toolpath.Proofs.NearestTheorems
import Toolpath.Proofs.SingleRangeTheorems

/-!
# Values of single-precision numbers

A finite single-precision number stands for a real one, and the order of finite numbers is that of
their values (`Single.le_iff_value`).

* Sums, differences, products, quotients and roots of finite numbers are rounded once
  (`Single.isRounding_add` and so on).
* Of two results that are rounded once, that of the greater real number is not the lesser
  (`Single.IsRounding.mono`). So a result lies on the same side of every finite number as the exact
  one.
-/

namespace Toolpath

namespace Binary

open Float.Model (Format)

variable {spec : Format} {m m' : ℕ} {e e' : ℤ}

/-- Canonical values are ordered by their exponents, and by their mantissas where these are
equal. -/
theorem IsCanonical.value_lt (h : IsCanonical spec m e) (h' : IsCanonical spec m' e')
    (hlt : e < e' ∨ e = e' ∧ m < m') : (m : ℝ) * 2 ^ e < m' * 2 ^ e' := by
  rcases hlt with hlt | ⟨rfl, hlt⟩
  · have hle := h.le
    have hfits : (m : ℝ) < 2 * 2 ^ spec.mantissaBitsWithoutImplicit := by
      have hlt := h.lt
      rw [two_pow_mantissaBits] at hlt
      exact_mod_cast hlt
    have hfull : (2 : ℝ) ^ spec.mantissaBitsWithoutImplicit ≤ m' := by
      exact_mod_cast h'.full.resolve_right (by omega)
    calc (m : ℝ) * 2 ^ e < 2 * 2 ^ spec.mantissaBitsWithoutImplicit * 2 ^ e :=
          mul_lt_mul_of_pos_right hfits (by positivity)
      _ = 2 ^ spec.mantissaBitsWithoutImplicit * 2 ^ (e + 1) := by
          rw [zpow_add_one₀ two_ne_zero]
          ring
      _ ≤ m' * 2 ^ e' := mul_le_mul hfull (zpow_le_zpow_right₀ one_le_two hlt) (by positivity)
          (by positivity)
  · exact mul_lt_mul_of_pos_right (by exact_mod_cast hlt) (by positivity)

end Binary

namespace Single

open Float.Model (Format UnpackedFloat totalExponent)
open Float.Model.UnpackedFloat (Sign Accuracy roundWithAccuracy)
open Number (singleDatum)

/-! ## Values -/

/-- The real number that parts stand for; zero for those of no finite number. -/
noncomputable def value : UnpackedFloat → ℝ
  | .finite .positive m e _ => m * 2 ^ e
  | .finite .negative m e _ => -(m * 2 ^ e)
  | _ => 0

theorem value_finite (s : Sign) {m : ℕ} {e : ℤ} (hm : 0 < m) :
    value (.finite s m e hm) = (s.apply 1 : ℤ) * (m * 2 ^ e) := by
  cases s <;> dsimp only [value, Sign.apply] <;> push_cast <;> ring

theorem abs_value_finite (s : Sign) {m : ℕ} {e : ℤ} (hm : 0 < m) :
    |value (.finite s m e hm)| = m * 2 ^ e := by
  have hpos : (0 : ℝ) ≤ m * 2 ^ e := by positivity
  cases s
  · exact (abs_neg _).trans (abs_of_nonneg hpos)
  · exact abs_of_nonneg hpos

/-- A value is its sign times its size. -/
theorem HasSign.value_eq {s : Sign} {u : UnpackedFloat} (h : HasSign s u) :
    value u = (s.apply 1 : ℤ) * |value u| := by
  cases u with
  | notANumber => exact h.elim
  | infinity t | zero t =>
    show (0 : ℝ) = _ * |0|
    rw [abs_zero, mul_zero]
  | finite t m e hm =>
    obtain rfl : t = s := h
    rw [abs_value_finite, value_finite]

theorem exists_hasSign {u : UnpackedFloat} (h : u ≠ .notANumber) : ∃ s, HasSign s u := by
  cases u with
  | notANumber => exact absurd rfl h
  | infinity s | zero s | finite s => exact ⟨s, rfl⟩

theorem toReal_singleDatum (x : Float32) : (singleDatum x).toReal = value (parts x) := by
  rw [singleDatum_eq]
  rcases parts x with s | _ | s | ⟨s, m, e, hm⟩ <;> (try cases s) <;>
    dsimp only [Binary.datumOf, Binary.isMinus, Number.Datum.toReal, value] <;> simp

theorem parts_cases (x : Float32) :
    parts x = .notANumber ∨ (∃ s, parts x = .infinity s) ∨ (∃ s, parts x = .zero s) ∨
      ∃ s m e, ∃ h : Binary.IsCanonical .binary32 m e, e ≤ 104 ∧ parts x = .finite s m e h.pos :=
  @Binary.unpack_cases .binary32 (by decide) x.toModel.toBits.toBitVec

/-- A finite number is a zero or has canonical parts. -/
theorem parts_of_isFinite {x : Float32} (h : x.isFinite = true) :
    (∃ s, parts x = .zero s) ∨
      ∃ s m e, ∃ h : Binary.IsCanonical .binary32 m e, e ≤ 104 ∧ parts x = .finite s m e h.pos := by
  have hfinite : (parts x).isFinite = true := h
  obtain hnan | ⟨s, hinfinity⟩ | hcases := parts_cases x
  · rw [hnan] at hfinite
    cases hfinite
  · rw [hinfinity] at hfinite
    cases hfinite
  · exact hcases

theorem value_neg (u : UnpackedFloat) : value u.neg = -value u := by
  rcases u with s | _ | s | ⟨s, m, e, hm⟩ <;> (try cases s)
  case finite.negative => exact (neg_neg _).symm
  case finite.positive => rfl
  all_goals exact neg_zero.symm

/-! ## Order -/

/-- Of two finite numbers the one of greater rank has the greater value. -/
theorem value_lt {x y : Float32} (hx : x.isFinite = true) (hy : y.isFinite = true)
    (h : rank (parts x) < rank (parts y)) : value (parts x) < value (parts y) := by
  obtain ⟨s, hu⟩ | ⟨s, m, e, hm, -, hu⟩ := parts_of_isFinite hx <;>
    obtain ⟨t, hv⟩ | ⟨t, m', e', hm', -, hv⟩ := parts_of_isFinite hy <;>
      rw [hu, hv] at h ⊢ <;> (try cases s) <;> (try cases t) <;> dsimp only [rank] at h <;>
        simp only [Prod.Lex.toLex_lt_toLex] at h <;> try (exfalso; omega)
  -- the signs decide, unless they are the same
  case inr.inr.positive.positive => exact hm.value_lt hm' (by omega)
  case inr.inr.negative.negative => exact neg_lt_neg (hm'.value_lt hm (by omega))
  all_goals
    have hpos : ∀ {n : ℕ} (d : ℤ), 0 < n → (0 : ℝ) < n * 2 ^ d := fun d hn =>
      mul_pos (by exact_mod_cast hn) (by positivity)
    dsimp only [value]
  case inr.inr.negative.positive => linarith [hpos e hm.pos, hpos e' hm'.pos]
  case inl.inr.negative.positive => exact hpos e' hm'.pos
  case inl.inr.positive.positive => exact hpos e' hm'.pos
  case inr.inl.negative.negative => exact neg_neg_of_pos (hpos e hm.pos)
  case inr.inl.negative.positive => exact neg_neg_of_pos (hpos e hm.pos)

/-- Numbers of one rank have one value. -/
theorem value_eq {u v : UnpackedFloat} (hu : u.isFinite = true) (hv : v.isFinite = true)
    (h : rank u = rank v) : value u = value v := by
  rcases u with s | _ | s | ⟨s, m, e, hm⟩ <;> rcases v with t | _ | t | ⟨t, m', e', hm'⟩ <;>
    (try cases s) <;> (try cases t) <;> (try contradiction) <;> dsimp only [rank] at h <;>
      simp only [toLex_inj, Prod.mk.injEq] at h <;> try (exfalso; omega)
  case finite.finite.negative.negative =>
    obtain ⟨rfl, rfl⟩ : e = e' ∧ m = m' := by omega
    rfl
  case finite.finite.positive.positive =>
    obtain ⟨rfl, rfl⟩ : e = e' ∧ m = m' := by omega
    rfl
  all_goals rfl

/-- The order of finite numbers is that of their values. -/
theorem rank_le_iff_value {x y : Float32} (hx : x.isFinite = true) (hy : y.isFinite = true) :
    rank (parts x) ≤ rank (parts y) ↔ value (parts x) ≤ value (parts y) := by
  rcases lt_trichotomy (rank (parts x)) (rank (parts y)) with h | h | h
  · exact iff_of_true h.le (value_lt hx hy h).le
  · exact iff_of_true h.le (value_eq hx hy h).le
  · exact iff_of_false h.not_ge (value_lt hy hx h).not_ge

theorem le_iff_value {x y : Float32} (hx : x.isFinite = true) (hy : y.isFinite = true) :
    x ≤ y ↔ value (parts x) ≤ value (parts y) := by
  rw [le_iff, ← rank_le_iff_value hx hy]
  exact ⟨fun h => h.2.2, fun h => ⟨ne_of_isFinite hx, ne_of_isFinite hy, h⟩⟩

/-! ## Rounded results -/

/-- A value that is not below zero is one of the format. -/
theorem isValue_parts {x : Float32} (h : x.isFinite = true) (hpos : 0 ≤ value (parts x)) :
    Binary.IsValue .binary32 (value (parts x)) := by
  obtain ⟨s, hu⟩ | ⟨s, m, e, hm, -, hu⟩ := parts_of_isFinite h
  · rw [hu]
    exact .inl rfl
  · rw [hu] at hpos ⊢
    cases s with
    | positive => exact .inr ⟨m, e, hm, rfl⟩
    | negative =>
      have hlt : (0 : ℝ) < m * 2 ^ e := mul_pos (by exact_mod_cast hm.pos) (by positivity)
      exact absurd (neg_nonneg.1 hpos) (not_le.2 hlt)

theorem value_lt_of_isFinite {x : Float32} (h : x.isFinite = true) :
    value (parts x) < 2 ^ 128 := by
  have hle : value (parts x) ≤ value (parts (Scalar.largest : Float32)) :=
    (le_iff_value h isFinite_largest).1 (le_largest h)
  have hlargest : value (parts (Scalar.largest : Float32)) = (2 ^ 24 - 1 : ℕ) * 2 ^ (104 : ℤ) := by
    rw [largest_eq]
    rfl
  rw [hlargest] at hle
  exact hle.trans_lt (by norm_num)

/-- A canonical value whose exponent is past the greatest one. -/
theorem le_value_of_large {m : ℕ} {e : ℤ} (h : Binary.IsCanonical .binary32 m e) (he : 104 < e) :
    (2 : ℝ) ^ 128 ≤ m * 2 ^ e := by
  have hmin : Float.Model.Format.binary32.minExponent = -149 := rfl
  have hfull : (2 : ℝ) ^ 23 ≤ m := by exact_mod_cast h.full.resolve_right (by omega)
  calc (2 : ℝ) ^ 128 = 2 ^ 23 * 2 ^ (105 : ℤ) := by norm_num
    _ ≤ (m : ℝ) * 2 ^ e :=
      mul_le_mul hfull (zpow_le_zpow_right₀ one_le_two he) (by positivity) (by positivity)

/-- A finite number of the given sign and magnitude, or the infinity of that sign where the
magnitude is past every finite number. -/
def HasMagnitude (s : Sign) (y : ℝ) (x : Float32) : Prop :=
  parts x = .infinity s ∧ 2 ^ 128 ≤ y ∨
    x.isFinite = true ∧ HasSign s (parts x) ∧ |value (parts x)| = y

/-- Packed, the parts that a magnitude is rounded to have a nearest magnitude. -/
theorem isNearest_ofParts {s : Sign} {r : ℝ} {u : UnpackedFloat}
    (h : Binary.IsRounded .binary32 s r u) : ∃ y, Binary.IsNearest .binary32 r y ∧
      Binary.IsValue .binary32 y ∧ HasMagnitude s y (ofParts u) := by
  obtain ⟨rfl, hnearest⟩ | ⟨m, e, hm, rfl, hnearest⟩ := h
  · have hzero : parts (ofParts (.zero s)) = .zero s := Binary.unpack_zero .binary32 s
    refine ⟨0, hnearest, .inl rfl, .inr ⟨?_, ?_, ?_⟩⟩
    · show (parts (ofParts (.zero s))).isFinite = true
      rw [hzero]
      rfl
    · rw [hzero]
      rfl
    · rw [hzero]
      exact abs_zero
  have hpos : (0 : ℝ) < m * 2 ^ e := mul_pos (by exact_mod_cast hm.pos) (by positivity)
  refine ⟨m * 2 ^ e, hnearest, .inr ⟨m, e, hm, rfl⟩, ?_⟩
  rcases le_or_gt e 104 with he | he
  · have hfinite : parts (ofParts (.finite s m e hm.pos)) = .finite s m e hm.pos :=
      Binary.unpack_pack s hm he
    refine .inr ⟨?_, ?_, ?_⟩
    · show (parts (ofParts (.finite s m e hm.pos))).isFinite = true
      rw [hfinite]
      rfl
    · rw [hfinite]
      rfl
    · rw [hfinite, abs_value_finite]
  · exact .inl ⟨Binary.unpack_pack_large s hm he, le_value_of_large hm he⟩

theorem HasSign.value_nonneg {u : UnpackedFloat} (h : HasSign .positive u) : 0 ≤ value u := by
  rcases u with s | _ | s | ⟨s, m, e, hm⟩
  · exact le_rfl
  · exact le_rfl
  · exact le_rfl
  · obtain rfl : s = .positive := h
    show (0 : ℝ) ≤ m * 2 ^ e
    positivity

namespace HasMagnitude

variable {s : Sign} {y y' : ℝ} {x x' : Float32}

theorem neg (h : HasMagnitude s y x) : HasMagnitude (-s) y (-x) := by
  obtain ⟨hinfinity, hlarge⟩ | ⟨hfinite, hsign, hvalue⟩ := h
  · exact .inl ⟨by rw [parts_neg, hinfinity]; rfl, hlarge⟩
  · refine .inr ⟨(isFinite_neg x).trans hfinite, ?_, by rw [parts_neg, value_neg, abs_neg, hvalue]⟩
    rw [parts_neg]
    generalize parts x = u at hsign ⊢
    cases u with
    | notANumber => exact hsign
    | infinity t | zero t | finite t => exact congrArg _ hsign

theorem ne (h : HasMagnitude s y x) : parts x ≠ .notANumber := by
  obtain ⟨hinfinity, -⟩ | ⟨hfinite, -, -⟩ := h
  · rw [hinfinity]
    nofun
  · exact ne_of_isFinite hfinite

/-- A number of the positive sign is not below zero. -/
theorem zero_le (h : HasMagnitude .positive y x) : 0.0 ≤ x := by
  rw [zero_le_iff]
  refine ⟨h.ne, ?_⟩
  obtain ⟨hinfinity, -⟩ | ⟨-, hsign, -⟩ := h
  · rw [hinfinity]
    exact id
  · exact hsign.not_isBelow

/-- Of two numbers of the positive sign the one of greater magnitude is the greater. -/
theorem le (h : HasMagnitude .positive y x) (h' : HasMagnitude .positive y' x') (hle : y ≤ y') :
    x ≤ x' := by
  obtain ⟨hinfinity', -⟩ | ⟨hfinite', hsign', rfl⟩ := h'
  · exact le_of_infinity hinfinity' (isNumber_iff.2 h.ne)
  rw [abs_of_nonneg hsign'.value_nonneg] at hle
  obtain ⟨-, hlarge⟩ | ⟨hfinite, hsign, rfl⟩ := h
  · exact absurd (value_lt_of_isFinite hfinite') (hlarge.trans hle).not_gt
  · rw [abs_of_nonneg hsign.value_nonneg] at hle
    exact (le_iff_value hfinite hfinite').2 hle

/-- A magnitude of nothing is that of a zero. -/
theorem of_zero (h : HasMagnitude s 0 x) : x.isFinite = true ∧ value (parts x) = 0 := by
  obtain ⟨-, hlarge⟩ | ⟨hfinite, -, hvalue⟩ := h
  · exact absurd hlarge (by norm_num)
  · exact ⟨hfinite, abs_eq_zero.1 hvalue⟩

end HasMagnitude

/-- A number that a real one is rounded to: it has the sign of the real number and a magnitude
nearest to that of it. -/
def IsRounding (r : ℝ) (x : Float32) : Prop :=
  ∃ (s : Sign) (m y : ℝ), 0 ≤ m ∧ r = (s.apply 1 : ℤ) * m ∧ Binary.IsNearest .binary32 m y ∧
    Binary.IsValue .binary32 y ∧ HasMagnitude s y x

/-- What a magnitude is rounded to with a sign is a rounding of the number with that sign. -/
theorem isRounding_of_isRounded {s : Sign} {r : ℝ} {u : UnpackedFloat}
    (h : Binary.IsRounded .binary32 s r u) (hr : 0 ≤ r) :
    IsRounding ((s.apply 1 : ℤ) * r) (ofParts u) := by
  obtain ⟨y, hnearest, hvalue, hmagnitude⟩ := isNearest_ofParts h
  exact ⟨s, r, y, hr, rfl, hnearest, hvalue, hmagnitude⟩

/-- A finite number is its own rounding. -/
theorem isRounding_self {x : Float32} (h : x.isFinite = true) :
    IsRounding (value (parts x)) x := by
  obtain ⟨s, hsign⟩ := exists_hasSign (ne_of_isFinite h)
  have hvalue : Binary.IsValue .binary32 |value (parts x)| := by
    obtain ⟨t, hx⟩ | ⟨t, m, e, hm, -, hx⟩ := parts_of_isFinite h <;> rw [hx]
    · exact .inl abs_zero
    · exact .inr ⟨m, e, hm, abs_value_finite t hm.pos⟩
  exact ⟨s, _, _, abs_nonneg _, hsign.value_eq, .refl _, hvalue, .inr ⟨h, hsign, rfl⟩⟩

namespace IsRounding

variable {r r' : ℝ} {x x' : Float32}

/-- Rounding keeps the order. -/
theorem mono (h : IsRounding r x) (h' : IsRounding r' x') (hle : r ≤ r') : x ≤ x' := by
  obtain ⟨s, m, y, hm, rfl, hnearest, hy, hx⟩ := h
  obtain ⟨t, m', y', hm', rfl, hnearest', hy', hx'⟩ := h'
  have hminus : ((Sign.negative.apply 1 : ℤ) : ℝ) = -1 := by norm_num [Sign.apply]
  have hplus : ((Sign.positive.apply 1 : ℤ) : ℝ) = 1 := by norm_num [Sign.apply]
  cases s <;> cases t
  case positive.positive =>
    rw [hplus, one_mul, one_mul] at hle
    exact hx.le hx' (hnearest.mono hnearest' hy hy' hle)
  case negative.negative =>
    rw [hminus, neg_one_mul, neg_one_mul, neg_le_neg_iff] at hle
    rw [← Single.neg_le_neg_iff]
    exact hx'.neg.le hx.neg (hnearest'.mono hnearest hy' hy hle)
  case negative.positive =>
    have hbelow : x ≤ 0.0 := by
      rw [← Single.neg_le_neg_iff]
      exact Scalar.num_le_trans (by decide +kernel) hx.neg.zero_le
    exact Scalar.num_le_trans hbelow hx'.zero_le
  case positive.negative =>
    -- only zeros of different signs are in this order
    rw [hplus, hminus, one_mul, neg_one_mul] at hle
    obtain rfl : m = 0 := by linarith
    obtain rfl : m' = 0 := by linarith
    obtain rfl : y = 0 := le_antisymm (hnearest.le_value 0 (.inl rfl) le_rfl) hy.nonneg
    obtain rfl : y' = 0 := le_antisymm (hnearest'.le_value 0 (.inl rfl) le_rfl) hy'.nonneg
    obtain ⟨hfinite, hvalue⟩ := hx.of_zero
    obtain ⟨hfinite', hvalue'⟩ := hx'.of_zero
    rw [le_iff_value hfinite hfinite', hvalue, hvalue']

/-- Of a number only the parts count. -/
theorem congr (h : IsRounding r x) (hparts : parts x' = parts x) : IsRounding r x' := by
  obtain ⟨s, m, y, hm, hr, hnearest, hy, hx⟩ := h
  refine ⟨s, m, y, hm, hr, hnearest, hy, ?_⟩
  have hfinite : x'.isFinite = x.isFinite := congrArg UnpackedFloat.isFinite hparts
  rwa [HasMagnitude, hparts, hfinite]

theorem ne (h : IsRounding r x) : parts x ≠ .notANumber := by
  obtain ⟨s, m, y, -, -, -, -, hx⟩ := h
  exact hx.ne

/-- A rounded number is on the same side of every finite one as the exact number. -/
theorem le {w : Float32} (h : IsRounding r x) (hw : w.isFinite = true)
    (hle : r ≤ value (parts w)) : x ≤ w := h.mono (isRounding_self hw) hle

theorem ge {w : Float32} (h : IsRounding r x) (hw : w.isFinite = true)
    (hle : value (parts w) ≤ r) : w ≤ x := (isRounding_self hw).mono h hle

end IsRounding

/-! ## Sums -/

theorem parts_ofParts_neg {s : Sign} {r : ℝ} {u : UnpackedFloat}
    (h : Binary.IsRounded .binary32 s r u) : parts (ofParts u.neg) = (parts (ofParts u)).neg := by
  obtain ⟨rfl, -⟩ | ⟨m, e, hm, rfl, -⟩ := h
  · cases s <;> rfl
  · rcases le_or_gt e 104 with he | he
    · have hunpack : ∀ t, parts (ofParts (.finite t m e hm.pos)) = .finite t m e hm.pos :=
        fun t => Binary.unpack_pack t hm he
      rw [hunpack s]
      exact hunpack (-s)
    · have hunpack : ∀ t, parts (ofParts (.finite t m e hm.pos)) = .infinity t :=
        fun t => Binary.unpack_pack_large t hm he
      rw [hunpack s]
      exact hunpack (-s)

theorem isRounding_zero (s : Sign) : IsRounding 0 (ofParts (.zero s)) := by
  cases s
  · exact isRounding_self (x := -0.0) rfl
  · exact isRounding_self (x := 0.0) rfl

/-- An exact sum, of either sign, is rounded once. -/
theorem isRounding_normalize (m e : ℤ) : IsRounding (m * 2 ^ e)
    (ofParts (UnpackedFloat.normalize .binary32 m e .positive)) := by
  unfold UnpackedFloat.normalize
  split
  case h_1 hlt =>
    -- a mantissa below zero is rounded by its size
    have hneg := compare_lt_iff_lt.1 hlt
    have hrounded := @Binary.isRounded_exact .binary32 (-m).toNat .negative (by omega) e
    have hrounding := isRounding_of_isRounded hrounded (by positivity)
    have hvalue : ((Sign.negative.apply 1 : ℤ) : ℝ) * (((-m).toNat : ℕ) * 2 ^ e) = m * 2 ^ e := by
      have hcast : (((-m).toNat : ℕ) : ℝ) = -m := by
        exact_mod_cast Int.toNat_of_nonneg (show 0 ≤ -m by omega)
      show ((-1 : ℤ) : ℝ) * _ = _
      rw [hcast]
      push_cast
      ring
    rwa [hvalue] at hrounding
  case h_2 heq =>
    rw [compare_eq_iff_eq.1 heq, Int.cast_zero, zero_mul]
    exact isRounding_zero .positive
  case h_3 hgt =>
    have hpos := compare_gt_iff_gt.1 hgt
    have hrounded := @Binary.isRounded_exact .binary32 m.toNat .positive (by omega) e
    have hrounding := isRounding_of_isRounded hrounded (by positivity)
    have hvalue : ((Sign.positive.apply 1 : ℤ) : ℝ) * ((m.toNat : ℕ) * 2 ^ e) = m * 2 ^ e := by
      have hcast : ((m.toNat : ℕ) : ℝ) = m := by
        exact_mod_cast Int.toNat_of_nonneg (show 0 ≤ m by omega)
      show ((1 : ℤ) : ℝ) * _ = _
      rw [hcast, Int.cast_one, one_mul]
    rwa [hvalue] at hrounding

/-- The mantissa of a value at a lower exponent. -/
theorem value_eq_apply (s : Sign) {m : ℕ} {e d : ℤ} (hm : 0 < m) (hd : d ≤ e) :
    value (.finite s m e hm) = (s.apply (m <<< (e - d).toNat : ℕ) : ℤ) * 2 ^ d := by
  obtain ⟨k, rfl⟩ : ∃ k : ℕ, e = d + k := ⟨(e - d).toNat, by omega⟩
  rw [add_sub_cancel_left, Int.toNat_natCast, Nat.shiftLeft_eq]
  cases s <;> dsimp only [value, Sign.apply] <;> rw [zpow_add₀ two_ne_zero, zpow_natCast] <;>
    push_cast <;> ring

/-- A sum of finite numbers is rounded once. -/
theorem isRounding_add {x y : Float32} (hx : x.isFinite = true) (hy : y.isFinite = true) :
    IsRounding (value (parts x) + value (parts y)) (x + y) := by
  show IsRounding _ (ofParts ((parts x).add .binary32 (parts y)))
  obtain ⟨s, hu⟩ | ⟨s, m, e, hm, he, hu⟩ := parts_of_isFinite hx <;>
    obtain ⟨t, hv⟩ | ⟨t, m', e', hm', he', hv⟩ := parts_of_isFinite hy
  -- a zero summand leaves the other as it is; only finite summands are rounded
  · have hzero : ∃ r, (parts x).add .binary32 (parts y) = .zero r := by
      rw [hu, hv]
      cases s <;> cases t <;> exact ⟨_, rfl⟩
    obtain ⟨r, hsum⟩ := hzero
    rw [hsum, hu, hv]
    show IsRounding (0 + 0) _
    rw [add_zero]
    exact isRounding_zero r
  · have hsum : (parts x).add .binary32 (parts y) = parts y := by rw [hu, hv]; rfl
    have hself : parts (ofParts (parts y)) = parts y := by
      rw [hv]
      exact Binary.unpack_pack t hm' he'
    rw [hsum, hu]
    show IsRounding (0 + _) _
    rw [zero_add]
    exact (isRounding_self hy).congr hself
  · have hsum : (parts x).add .binary32 (parts y) = parts x := by rw [hu, hv]; rfl
    have hself : parts (ofParts (parts x)) = parts x := by
      rw [hu]
      exact Binary.unpack_pack s hm he
    rw [hsum, hv]
    show IsRounding (_ + 0) _
    rw [add_zero]
    exact (isRounding_self hx).congr hself
  · rw [hu, hv, value_eq_apply s hm.pos (min_le_left e e'),
      value_eq_apply t hm'.pos (min_le_right e e'), ← add_mul, ← Int.cast_add]
    exact isRounding_normalize _ _

theorem apply_neg (s : Sign) (n : ℤ) : (-s).apply n = -s.apply n := by
  cases s
  · exact (neg_neg n).symm
  · rfl

theorem sub_eq (u v : UnpackedFloat) : u.sub .binary32 v = u.add .binary32 v.neg := by
  rcases u with s | _ | s | ⟨s, m, e, hm⟩ <;> rcases v with t | _ | t | ⟨t, m', e', hm'⟩
  case finite.finite =>
    dsimp only [UnpackedFloat.sub, UnpackedFloat.add, UnpackedFloat.neg]
    rw [apply_neg, ← sub_eq_add_neg]
  all_goals
    (try cases s) <;> (try cases t) <;> rfl

/-- Taking a number away is adding its negative. -/
protected theorem sub_eq_add_neg (x y : Float32) : x - y = x + -y := by
  show ofParts ((parts x).sub .binary32 (parts y)) = ofParts ((parts x).add .binary32 (parts (-y)))
  rw [sub_eq, parts_neg]

/-- A difference of finite numbers is rounded once. -/
theorem isRounding_sub {x y : Float32} (hx : x.isFinite = true) (hy : y.isFinite = true) :
    IsRounding (value (parts x) - value (parts y)) (x - y) := by
  have hadd := isRounding_add hx ((isFinite_neg y).trans hy)
  rw [parts_neg, value_neg, ← Single.sub_eq_add_neg] at hadd
  exact hadd

/-! ## Products -/

theorem round_mul_neg (s t : Sign) (m : ℕ) (e : ℤ) (a : Accuracy) :
    roundWithAccuracy .binary32 (s * -t) m e a =
      (roundWithAccuracy .binary32 (s * t) m e a).neg := by
  have hsign : s * -t = -(s * t) := by cases s <;> cases t <;> rfl
  rw [hsign, Binary.round_eq, Binary.round_eq, apply_dite UnpackedFloat.neg]
  rfl

theorem mul_neg (u v : UnpackedFloat) : u.mul .binary32 v.neg = (u.mul .binary32 v).neg := by
  rcases u with s | _ | s | ⟨s, m, e, hm⟩ <;> rcases v with t | _ | t | ⟨t, m', e', hm'⟩
  case finite.finite => exact round_mul_neg s t _ _ _
  all_goals (try cases s) <;> (try cases t) <;> rfl

theorem sign_mul_comm (s t : Sign) : s * t = t * s := by cases s <;> cases t <;> rfl

theorem mul_comm_parts (u v : UnpackedFloat) : u.mul .binary32 v = v.mul .binary32 u := by
  rcases u with s | _ | s | ⟨s, m, e, hm⟩ <;> rcases v with t | _ | t | ⟨t, m', e', hm'⟩
  case finite.finite =>
    dsimp only [UnpackedFloat.mul]
    rw [sign_mul_comm, mul_comm m, add_comm e]
  all_goals (try cases s) <;> (try cases t) <;> rfl

protected theorem mul_comm (x y : Float32) : x * y = y * x :=
  congrArg ofParts (mul_comm_parts (parts x) (parts y))

/-- The product of two finite numbers that are not zero is rounded once. -/
theorem isRounded_mul (s : Sign) {m m' : ℕ} {e e' : ℤ} (h : Binary.IsCanonical .binary32 m e)
    (h' : Binary.IsCanonical .binary32 m' e') : Binary.IsRounded .binary32 s
      (m * 2 ^ e * (m' * 2 ^ e')) (roundWithAccuracy .binary32 s (m * m') (e + e') .exact) := by
  have hmin : Format.binary32.minExponent = -149 := rfl
  have hbits : e + e' ≤ Format.binary32.targetExponent (totalExponent (m * m') (e + e')) := by
    have hpos := Nat.mul_pos h.pos h'.pos
    rw [Binary.targetExponent_eq]
    by_cases hfull : 2 ^ 23 ≤ m * m'
    · have hlog : 23 ≤ (m * m').log2 := (Nat.le_log2 hpos.ne').2 hfull
      apply le_max_of_le_left
      show e + e' ≤ ((m * m').log2 : ℤ) + (e + e') - (23 : ℕ)
      omega
    · -- two mantissas that do not fill the format have the least exponent
      have hleast : e = -149 := h.full.resolve_left fun hm =>
        hfull (hm.trans (Nat.le_mul_of_pos_right m h'.pos))
      have hleast' : e' = -149 := h'.full.resolve_left fun hm =>
        hfull (hm.trans (Nat.le_mul_of_pos_left m' h.pos))
      apply le_max_of_le_right
      omega
  apply Binary.isRounded_round s (.inl (Nat.mul_pos h.pos h'.pos)) hbits
  show _ = (0 : ℝ)
  rw [zpow_add₀ two_ne_zero]
  push_cast
  field_simp
  ring

/-- A product of finite numbers is a zero, or its parts are rounded. -/
theorem mul_cases {x y : Float32} (hx : x.isFinite = true) (hy : y.isFinite = true) :
    (∃ s, (parts x).mul .binary32 (parts y) = .zero s ∧
        value (parts x) * value (parts y) = 0) ∨
      ∃ s r, Binary.IsRounded .binary32 s r ((parts x).mul .binary32 (parts y)) ∧ 0 ≤ r ∧
        value (parts x) * value (parts y) = (s.apply 1 : ℤ) * r := by
  obtain ⟨s, hu⟩ | ⟨s, m, e, hm, he, hu⟩ := parts_of_isFinite hx <;>
    obtain ⟨t, hv⟩ | ⟨t, m', e', hm', he', hv⟩ := parts_of_isFinite hy <;> rw [hu, hv]
  · exact .inl ⟨_, rfl, zero_mul _⟩
  · exact .inl ⟨_, rfl, zero_mul _⟩
  · exact .inl ⟨_, rfl, mul_zero _⟩
  · refine .inr ⟨s * t, _, isRounded_mul (s * t) hm hm', by positivity, ?_⟩
    cases s <;> cases t
    · show -(m * 2 ^ e : ℝ) * -(m' * 2 ^ e') = (1 : ℤ) * (m * 2 ^ e * (m' * 2 ^ e'))
      push_cast
      ring
    · show -(m * 2 ^ e : ℝ) * (m' * 2 ^ e') = (-1 : ℤ) * (m * 2 ^ e * (m' * 2 ^ e'))
      push_cast
      ring
    · show (m * 2 ^ e : ℝ) * -(m' * 2 ^ e') = (-1 : ℤ) * (m * 2 ^ e * (m' * 2 ^ e'))
      push_cast
      ring
    · show (m * 2 ^ e : ℝ) * (m' * 2 ^ e') = (1 : ℤ) * (m * 2 ^ e * (m' * 2 ^ e'))
      push_cast
      ring

/-- A product of finite numbers is rounded once. -/
theorem isRounding_mul {x y : Float32} (hx : x.isFinite = true) (hy : y.isFinite = true) :
    IsRounding (value (parts x) * value (parts y)) (x * y) := by
  show IsRounding _ (ofParts ((parts x).mul .binary32 (parts y)))
  obtain ⟨s, hzero, hvalue⟩ | ⟨s, r, hrounded, hr, hvalue⟩ := mul_cases hx hy
  · rw [hzero, hvalue]
    exact isRounding_zero s
  · rw [hvalue]
    exact isRounding_of_isRounded hrounded hr

/-- A factor with the other sign gives a product with the other sign. -/
theorem parts_mul_neg {x y : Float32} (hx : x.isFinite = true) (hy : y.isFinite = true) :
    parts (x * -y) = (parts (x * y)).neg := by
  show parts (ofParts ((parts x).mul .binary32 (parts (-y)))) =
    (parts (ofParts ((parts x).mul .binary32 (parts y)))).neg
  rw [parts_neg, mul_neg]
  obtain ⟨s, hzero, -⟩ | ⟨s, r, hrounded, -, -⟩ := mul_cases hx hy
  · rw [hzero]
    cases s <;> rfl
  · exact parts_ofParts_neg hrounded

/-! ## Quotients -/

theorem parts_of_zero_lt {y : Float32} (hy : y.isFinite = true) (hpos : 0 < value (parts y)) :
    ∃ m e, ∃ h : Binary.IsCanonical .binary32 m e, parts y = .finite .positive m e h.pos := by
  obtain ⟨t, hv⟩ | ⟨t, m, e, hm, -, hv⟩ := parts_of_isFinite hy
  · rw [hv] at hpos
    exact absurd hpos (lt_irrefl _)
  · rw [hv] at hpos
    cases t with
    | positive => exact ⟨m, e, hm, hv⟩
    | negative =>
      have hneg : (0 : ℝ) < m * 2 ^ e := mul_pos (by exact_mod_cast hm.pos) (by positivity)
      exact absurd hpos (neg_neg_of_pos hneg).not_gt

/-- The magnitude of a quotient is rounded once, under the sign of the dividend, if the divisor is
above zero. -/
theorem isRounded_div_parts {s : Sign} {x y : Float32} (hx : x.isFinite = true)
    (hsign : HasSign s (parts x)) (hy : y.isFinite = true) (hpos : 0 < value (parts y)) :
    Binary.IsRounded .binary32 s (|value (parts x)| / value (parts y))
      ((parts x).div .binary32 (parts y)) := by
  obtain ⟨m', e', hm', hv⟩ := parts_of_zero_lt hy hpos
  obtain ⟨t, hu⟩ | ⟨t, m, e, hm, -, hu⟩ := parts_of_isFinite hx <;> rw [hu] at hsign ⊢ <;>
    obtain rfl : t = s := hsign <;> rw [hv]
  -- zero divided is zero
  · have hquotient : (UnpackedFloat.zero t).div .binary32 (.finite .positive m' e' hm'.pos) =
        .zero t := by cases t <;> rfl
    have hvalue : |value (.zero t)| = 0 := abs_zero
    rw [hquotient, hvalue, zero_div]
    exact .inl ⟨rfl, .refl 0⟩
  · have hrounded : Binary.IsRounded .binary32 (t / .positive) (m * 2 ^ e / (m' * 2 ^ e'))
        ((UnpackedFloat.finite t m e hm.pos).div .binary32 (.finite .positive m' e' hm'.pos)) :=
      Binary.isRounded_div _ hm.pos hm'.pos
    have hkept : t / .positive = t := by cases t <;> rfl
    rw [hkept] at hrounded
    rwa [abs_value_finite]

/-- A quotient of numbers of the positive sign is a nearest one, or infinite where that is past
every finite number. -/
theorem isNearest_div {x y : Float32} (hx : x.isFinite = true) (hsign : HasSign .positive (parts x))
    (hy : y.isFinite = true) (hpos : 0 < value (parts y)) :
    ∃ q, Binary.IsNearest .binary32 (value (parts x) / value (parts y)) q ∧
      (parts (x / y) = .infinity .positive ∧ 2 ^ 128 ≤ q ∨
        (x / y).isFinite = true ∧ HasSign .positive (parts (x / y)) ∧
          value (parts (x / y)) = q) := by
  have hrounded := isRounded_div_parts hx hsign hy hpos
  rw [abs_of_nonneg hsign.value_nonneg] at hrounded
  obtain ⟨q, hnearest, -, hinfinity | ⟨hfinite, hquotient, hvalue⟩⟩ := isNearest_ofParts hrounded
  · exact ⟨q, hnearest, .inl hinfinity⟩
  · rw [abs_of_nonneg hquotient.value_nonneg] at hvalue
    exact ⟨q, hnearest, .inr ⟨hfinite, hquotient, hvalue⟩⟩

/-- A quotient of finite numbers, the divisor above zero, is rounded once. -/
theorem isRounding_div {x y : Float32} (hx : x.isFinite = true) (hy : y.isFinite = true)
    (hpos : 0 < value (parts y)) : IsRounding (value (parts x) / value (parts y)) (x / y) := by
  obtain ⟨s, hsign⟩ : ∃ s, HasSign s (parts x) := exists_hasSign (ne_of_isFinite hx)
  have hrounded := isRounded_div_parts hx hsign hy hpos
  have hrounding := isRounding_of_isRounded hrounded (div_nonneg (abs_nonneg _) hpos.le)
  rwa [← mul_div_assoc, ← hsign.value_eq] at hrounding

/-! ## Roots -/

/-- A root of a finite number that is not below zero is rounded once. -/
theorem isRounding_sqrt {x : Float32} (hx : x.isFinite = true) (hpos : 0 ≤ value (parts x)) :
    IsRounding (√(value (parts x))) (Scalar.sqrt x) := by
  show IsRounding _ (ofParts ((parts x).sqrt .binary32))
  obtain ⟨s, hu⟩ | ⟨s, m, e, hm, -, hu⟩ := parts_of_isFinite hx
  · have hroot : (parts x).sqrt .binary32 = .zero s := by
      rw [hu]
      rfl
    have hvalue : value (parts x) = 0 := by
      rw [hu]
      rfl
    rw [hroot, hvalue, Real.sqrt_zero]
    exact isRounding_zero s
  · cases s with
    | negative =>
      have hneg : (0 : ℝ) < m * 2 ^ e := mul_pos (by exact_mod_cast hm.pos) (by positivity)
      rw [hu] at hpos
      exact absurd hpos (neg_neg_of_pos hneg).not_ge
    | positive =>
      have hrounded : Binary.IsRounded .binary32 .positive (√(value (parts x)))
          ((parts x).sqrt .binary32) := by
        rw [hu]
        exact Binary.isRounded_sqrt .positive hm.pos
      have hrounding := isRounding_of_isRounded hrounded (Real.sqrt_nonneg _)
      rwa [show ((Sign.positive.apply 1 : ℤ) : ℝ) = 1 by norm_num [Sign.apply], one_mul]
        at hrounding

end Single

end Toolpath
