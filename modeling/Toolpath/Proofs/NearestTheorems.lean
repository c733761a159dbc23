import Mathlib.Tactic.FieldSimp
import Toolpath.Scalar.Real
import Toolpath.Proofs.FormatTheorems

/-!
# Rounding to nearest

Before a mantissa is rounded, two bits say how the rest that is dropped compares with one half. They
keep saying so while bits are shifted out (`Binary.StandsFor.shiftRight`), so the rounded mantissa
is off by one half at most, for the mantissa of a quotient as for an exact one
(`Binary.abs_rounded_sub_le`).

It follows that a result lies on the same side of every value of the format as what was rounded, and
is off by half a unit of the last place at most, with ties going to the even neighbour. So it is of
sums (`Binary.isRounded_exact`), of quotients (`Binary.isRounded_div`) and of roots
(`Binary.isRounded_sqrt`). A greater number has no lesser nearest value (`Binary.IsNearest.mono`).
-/

namespace Toolpath

namespace Binary

open Float.Model (Format UnpackedFloat totalExponent)
open Float.Model.UnpackedFloat (Sign Accuracy ExtendedMantissa roundWithAccuracy divCore sqrtCore
  accuracyOfFraction shiftToTargetExponent)

variable {spec : Format} {s : Sign} {m : ℕ} {e : ℤ} {x : ℝ}

/-! ## Dropped bits -/

/-- What an accuracy says of the part of a unit by which a number exceeds its mantissa. -/
def Tells : Accuracy → ℝ → Prop
  | .exact, part => part = 0
  | .inexact .lt, part => 0 < part ∧ part < 1 / 2
  | .inexact .eq, part => part = 1 / 2
  | .inexact .gt, part => 1 / 2 < part ∧ part < 1

/-- A mantissa with two more bits stands for the numbers that these bits tell of. -/
def StandsFor (em : ExtendedMantissa) (x : ℝ) : Prop := Tells em.accuracy (x - em.mantissa)

theorem standsFor_ofMantissaAndAccuracy {a : Accuracy} (h : Tells a (x - m)) :
    StandsFor (.ofMantissaAndAccuracy m a) x := by
  rcases a with _ | o
  · exact h
  · cases o <;> exact h

/-- The bit shifted out tells of the new half, and the bits below it of the rest. -/
theorem StandsFor.shiftRightOne {em : ExtendedMantissa} (h : StandsFor em x) :
    StandsFor em.shiftRightOne (x / 2) := by
  obtain ⟨m, round, sticky⟩ := em
  have hsplit : (m : ℝ) = 2 * (m / 2 : ℕ) + (m % 2 : ℕ) := by
    exact_mod_cast (Nat.div_add_mod m 2).symm
  have hpart : x / 2 - (m / 2 : ℕ) = (m % 2 : ℕ) / 2 + (x - m) / 2 := by
    rw [hsplit]
    ring
  unfold StandsFor ExtendedMantissa.shiftRightOne
  dsimp only
  rw [hpart]
  unfold StandsFor at h
  dsimp only at h
  generalize x - m = part at h ⊢
  rcases Nat.mod_two_eq_zero_or_one m with hbit | hbit <;> rw [hbit] <;> cases round <;>
    cases sticky <;> simp [ExtendedMantissa.accuracy, Tells] at h ⊢
  -- only a rest of nothing leaves a rest that is told exactly
  case inl.false.false | inr.false.false => linarith
  all_goals constructor <;> linarith

theorem StandsFor.shiftRight {em : ExtendedMantissa} (h : StandsFor em x) (k : ℕ) :
    StandsFor (em >>> k) (x / 2 ^ k) := by
  induction k with
  | zero =>
    rw [pow_zero, div_one]
    exact h
  | succ k ih =>
    rw [pow_succ, ← div_div]
    exact ih.shiftRightOne

/-- The rounded mantissa is off by one half at most. -/
theorem StandsFor.abs_sub_le {em : ExtendedMantissa} (h : StandsFor em x) :
    |(em.roundedMantissa : ℝ) - x| ≤ 1 / 2 := by
  obtain ⟨m, round, sticky⟩ := em
  unfold StandsFor at h
  dsimp only at h
  rw [abs_le]
  cases round <;> cases sticky <;>
    simp only [ExtendedMantissa.accuracy, Tells, ExtendedMantissa.roundedMantissa,
      Accuracy.roundToNearestEven] at h ⊢
  case false.false => constructor <;> linarith
  case false.true => constructor <;> linarith [h.1, h.2]
  case true.false =>
    rcases Nat.mod_two_eq_zero_or_one m with hbit | hbit <;> rw [hbit] <;> push_cast <;>
      constructor <;> linarith
  case true.true =>
    push_cast
    constructor <;> linarith [h.1, h.2]

/-- Where it is off by one half, it is even. -/
theorem StandsFor.even {em : ExtendedMantissa} (h : StandsFor em x)
    (htie : |(em.roundedMantissa : ℝ) - x| = 1 / 2) : em.roundedMantissa % 2 = 0 := by
  obtain ⟨m, round, sticky⟩ := em
  unfold StandsFor at h
  dsimp only at h
  cases round <;> cases sticky <;>
    simp only [ExtendedMantissa.accuracy, Tells, ExtendedMantissa.roundedMantissa,
      Accuracy.roundToNearestEven] at h htie ⊢
  case false.false =>
    rw [abs_sub_comm, h, abs_zero] at htie
    norm_num at htie
  case false.true =>
    rw [abs_sub_comm, abs_of_pos h.1] at htie
    exact absurd htie h.2.ne
  case true.false => omega
  case true.true =>
    push_cast at htie
    rw [abs_of_pos (by linarith [h.2])] at htie
    linarith [h.1]

/-- The bits of a result, those that are dropped among them, stand for what is rounded, in units of
its last place. -/
theorem standsFor_shifted {a : Accuracy} (hbits : e ≤ spec.targetExponent (totalExponent m e))
    (h : Tells a (x / 2 ^ e - m)) : StandsFor (shiftToTargetExponent spec m e a).1
      (x / 2 ^ spec.targetExponent (totalExponent m e)) := by
  have hexponent := le_targetExponent_add spec m e
  rw [max_eq_right hbits] at hexponent
  have hunit : x / 2 ^ spec.targetExponent (totalExponent m e) =
      x / 2 ^ e / 2 ^ spareBits spec m e := by
    rw [← hexponent, zpow_add₀ two_ne_zero, zpow_natCast, div_div]
  rw [hunit]
  exact (standsFor_ofMantissaAndAccuracy h).shiftRight _

/-- The mantissa of a result is what is rounded, in units of its last place, up to one half. -/
theorem abs_rounded_sub_le {a : Accuracy} (hbits : e ≤ spec.targetExponent (totalExponent m e))
    (h : Tells a (x / 2 ^ e - m)) :
    |(rounded spec m e a : ℝ) - x / 2 ^ spec.targetExponent (totalExponent m e)| ≤ 1 / 2 :=
  (standsFor_shifted hbits h).abs_sub_le

/-! ## Values of a format -/

/-- What a format has a mantissa and an exponent for, however great the exponent. -/
def IsValue (spec : Format) (w : ℝ) : Prop :=
  w = 0 ∨ ∃ m e, IsCanonical spec m e ∧ w = m * 2 ^ e

/-- A value is a whole number of units, unless it is below a full mantissa of them. -/
theorem IsValue.cases {w : ℝ} (h : IsValue spec w) (t : ℤ) :
    (∃ n : ℕ, w = n * 2 ^ t) ∨
      spec.minExponent < t ∧ w < 2 ^ spec.mantissaBitsWithoutImplicit * 2 ^ t := by
  obtain rfl | ⟨m, e, hcanonical, rfl⟩ := h
  · refine .inl ⟨0, ?_⟩
    rw [Nat.cast_zero, zero_mul]
  have hle := hcanonical.le
  rcases le_or_gt t e with hte | hte
  · obtain ⟨k, rfl⟩ : ∃ k : ℕ, e = t + k := ⟨(e - t).toNat, by omega⟩
    refine .inl ⟨m * 2 ^ k, ?_⟩
    rw [zpow_add₀ two_ne_zero, zpow_natCast]
    push_cast
    ring
  · refine .inr ⟨by omega, ?_⟩
    have hfits : (m : ℝ) < 2 * 2 ^ spec.mantissaBitsWithoutImplicit := by
      have hlt := hcanonical.lt
      rw [two_pow_mantissaBits] at hlt
      exact_mod_cast hlt
    calc (m : ℝ) * 2 ^ e < 2 * 2 ^ spec.mantissaBitsWithoutImplicit * 2 ^ e :=
          mul_lt_mul_of_pos_right hfits (by positivity)
      _ = 2 ^ spec.mantissaBitsWithoutImplicit * 2 ^ (e + 1) := by
          rw [zpow_add_one₀ two_ne_zero]
          ring
      _ ≤ 2 ^ spec.mantissaBitsWithoutImplicit * 2 ^ t := by
          apply mul_le_mul_of_nonneg_left _ (by positivity)
          exact zpow_le_zpow_right₀ one_le_two (by omega)

theorem IsValue.nonneg {w : ℝ} (h : IsValue spec w) : 0 ≤ w := by
  obtain rfl | ⟨m, e, -, rfl⟩ := h
  · exact le_rfl
  · positivity

/-- A result lies on the same side of every value as what was rounded, and is off by half a unit of
the last place at most. Where it is off by that much, it is an even number of units. -/
structure IsNearest (spec : Format) (x y : ℝ) : Prop where
  le_value : ∀ w, IsValue spec w → x ≤ w → y ≤ w
  value_le : ∀ w, IsValue spec w → w ≤ x → w ≤ y
  abs_sub_le : ∀ t : ℤ, spec.minExponent ≤ t → x < 2 ^ spec.mantissaBits * 2 ^ t →
    |y - x| ≤ 2 ^ t / 2
  even : ∀ t : ℤ, spec.minExponent ≤ t → x < 2 ^ spec.mantissaBits * 2 ^ t →
    |y - x| = 2 ^ t / 2 → ∃ n : ℕ, n % 2 = 0 ∧ y = n * 2 ^ t

/-- A whole number that is off by one half at most is on the same side of every whole number. -/
theorem le_of_abs_sub_le {n k : ℕ} {z : ℝ} (h : |(n : ℝ) - z| ≤ 1 / 2) (hle : z ≤ k) : n ≤ k := by
  have hlt : (n : ℝ) < (k + 1 : ℕ) := by
    have hhigh := (abs_le.1 h).2
    push_cast
    linarith
  exact Nat.lt_succ_iff.1 (by exact_mod_cast hlt)

theorem ge_of_abs_sub_le {n k : ℕ} {z : ℝ} (h : |(n : ℝ) - z| ≤ 1 / 2) (hle : (k : ℝ) ≤ z) :
    k ≤ n := by
  have hlt : (k : ℝ) < (n + 1 : ℕ) := by
    have hlow := (abs_le.1 h).1
    push_cast
    linarith
  exact Nat.lt_succ_iff.1 (by exact_mod_cast hlt)

/-- Nothing is nearer to a number than itself. -/
theorem IsNearest.refl (x : ℝ) : IsNearest spec x x where
  le_value _ _ hle := hle
  value_le _ _ hle := hle
  abs_sub_le t _ _ := by
    rw [sub_self, abs_zero]
    positivity
  even t _ _ htie := by
    have hpos : (0 : ℝ) < 2 ^ t / 2 := by positivity
    rw [sub_self, abs_zero] at htie
    exact absurd htie hpos.ne

/-- What fills the format at one place is too great for the format at a lower one. -/
theorem place_le {t t' : ℤ}
    (hfull : spec.minExponent < t → 2 ^ spec.mantissaBitsWithoutImplicit * 2 ^ t ≤ x)
    (hmin : spec.minExponent ≤ t') (hlt : x < 2 ^ spec.mantissaBits * 2 ^ t') : t ≤ t' := by
  rcases le_or_gt t spec.minExponent with hleast | hgt
  · exact hleast.trans hmin
  · have hbits : (2 : ℝ) ^ (spec.mantissaBitsWithoutImplicit + t) <
        2 ^ (spec.mantissaBits + t') := by
      rw [zpow_add₀ two_ne_zero, zpow_add₀ two_ne_zero, zpow_natCast, zpow_natCast]
      exact (hfull hgt).trans_lt hlt
    have hexponent := (zpow_lt_zpow_iff_right₀ one_lt_two).1 hbits
    unfold Format.mantissaBits at hexponent
    omega

/-- An error in units of a place. -/
theorem abs_mul_two_zpow_sub (r : ℕ) (t : ℤ) :
    |(r : ℝ) * 2 ^ t - x| = |(r : ℝ) - x / 2 ^ t| * 2 ^ t := by
  have hunit : (0 : ℝ) < 2 ^ t := by positivity
  rw [← abs_of_pos hunit, ← abs_mul, abs_of_pos hunit, sub_mul, div_mul_cancel₀ _ hunit.ne']

/-- The nearest whole number of units is a nearest result, where the unit is the least one or what
is rounded fills the format. -/
theorem isNearest_of_abs_sub_le {t : ℤ} {r : ℕ}
    (hfull : spec.minExponent < t → 2 ^ spec.mantissaBitsWithoutImplicit * 2 ^ t ≤ x)
    (h : |(r : ℝ) - x / 2 ^ t| ≤ 1 / 2) (htie : |(r : ℝ) - x / 2 ^ t| = 1 / 2 → r % 2 = 0) :
    IsNearest spec x (r * 2 ^ t) := by
  have hunit : (0 : ℝ) < 2 ^ t := by positivity
  have herror : |(r : ℝ) * 2 ^ t - x| ≤ 1 / 2 * 2 ^ t := by
    rw [abs_mul_two_zpow_sub]
    exact mul_le_mul_of_nonneg_right h hunit.le
  constructor
  case le_value =>
    intro w hw hle
    obtain ⟨n, rfl⟩ | ⟨hmin, hsmall⟩ := hw.cases t
    · have hr : r ≤ n := le_of_abs_sub_le h (by rwa [div_le_iff₀ hunit])
      exact mul_le_mul_of_nonneg_right (by exact_mod_cast hr) hunit.le
    · exact absurd (hfull hmin) (not_le.2 (hle.trans_lt hsmall))
  case value_le =>
    intro w hw hle
    obtain ⟨n, rfl⟩ | ⟨hmin, hsmall⟩ := hw.cases t
    · have hr : n ≤ r := ge_of_abs_sub_le h (by rwa [le_div_iff₀ hunit])
      exact mul_le_mul_of_nonneg_right (by exact_mod_cast hr) hunit.le
    · have hr : 2 ^ spec.mantissaBitsWithoutImplicit ≤ r := by
        apply ge_of_abs_sub_le h
        rw [le_div_iff₀ hunit]
        exact_mod_cast hfull hmin
      refine hsmall.le.trans (mul_le_mul_of_nonneg_right ?_ hunit.le)
      exact_mod_cast hr
  case abs_sub_le =>
    intro t' hmin hlt
    calc |(r : ℝ) * 2 ^ t - x| ≤ 1 / 2 * 2 ^ t := herror
      _ ≤ 1 / 2 * 2 ^ t' := by
        apply mul_le_mul_of_nonneg_left _ (by norm_num)
        exact zpow_le_zpow_right₀ one_le_two (place_le hfull hmin hlt)
      _ = 2 ^ t' / 2 := by ring
  case even =>
    intro t' hmin hlt heq
    -- no place above the last one of the result has a half as small as the error
    have hpower : (2 : ℝ) ^ t' ≤ 2 ^ t := by
      rw [heq] at herror
      linarith
    have hplace : t' = t :=
      le_antisymm ((zpow_le_zpow_iff_right₀ one_lt_two).1 hpower) (place_le hfull hmin hlt)
    rw [hplace, abs_mul_two_zpow_sub] at heq
    have hhalf : |(r : ℝ) - x / 2 ^ t| = 1 / 2 := by
      apply mul_right_cancel₀ hunit.ne'
      rw [heq]
      ring
    exact ⟨r, htie hhalf, by rw [hplace]⟩

/-- Between two values lies a unit of a place that holds all that is below the greater one. -/
theorem IsValue.add_le {w y : ℝ} (hw : IsValue spec w) (hy : IsValue spec y) (hlt : w < y) :
    ∃ t : ℤ, spec.minExponent ≤ t ∧ y ≤ 2 ^ spec.mantissaBits * 2 ^ t ∧ w + 2 ^ t ≤ y := by
  obtain rfl | ⟨m, e, hm, rfl⟩ := hy
  · exact absurd hw.nonneg hlt.not_ge
  have hunit : (0 : ℝ) < 2 ^ e := by positivity
  have hfits : (m : ℝ) ≤ 2 ^ spec.mantissaBits := by exact_mod_cast hm.lt.le
  by_cases hfull : 2 ^ spec.mantissaBitsWithoutImplicit < m ∨ e = spec.minExponent
  · refine ⟨e, hm.le, mul_le_mul_of_nonneg_right hfits hunit.le, ?_⟩
    have hnext : ∀ {n : ℕ}, n < m → (n : ℝ) * 2 ^ e + 2 ^ e ≤ m * 2 ^ e := by
      intro n hn
      rw [← add_one_mul]
      exact mul_le_mul_of_nonneg_right (by exact_mod_cast hn) hunit.le
    obtain ⟨n, rfl⟩ | ⟨hmin, hsmall⟩ := hw.cases e
    · exact hnext (by exact_mod_cast lt_of_mul_lt_mul_right hlt hunit.le)
    · have hlast := hnext (hfull.resolve_right hmin.ne')
      push_cast at hlast
      linarith
  · -- below a mantissa with the leading bit alone the places are half as wide
    obtain ⟨hle, hmin⟩ := not_or.1 hfull
    have hfits' : (m : ℝ) * 2 ^ e = 2 ^ spec.mantissaBits * 2 ^ (e - 1) := by
      have hleading : m = 2 ^ spec.mantissaBitsWithoutImplicit :=
        le_antisymm (not_lt.1 hle) (hm.full.resolve_right hmin)
      have hbits : (2 : ℝ) ^ spec.mantissaBits = 2 * m := by
        rw [hleading]
        exact_mod_cast two_pow_mantissaBits spec
      rw [hbits, zpow_sub_one₀ two_ne_zero]
      ring
    have hhalf : (0 : ℝ) < 2 ^ (e - 1) := by positivity
    have hleast := hm.le
    refine ⟨e - 1, by omega, hfits'.le, ?_⟩
    rw [hfits'] at hlt ⊢
    obtain ⟨n, rfl⟩ | ⟨-, hsmall⟩ := hw.cases (e - 1)
    · have hn : n < 2 ^ spec.mantissaBits := by exact_mod_cast lt_of_mul_lt_mul_right hlt hhalf.le
      rw [← add_one_mul]
      exact mul_le_mul_of_nonneg_right (by exact_mod_cast hn) hhalf.le
    · have hone : (1 : ℝ) ≤ 2 ^ spec.mantissaBitsWithoutImplicit := one_le_pow₀ one_le_two
      have hbits : (2 : ℝ) ^ spec.mantissaBits = 2 * 2 ^ spec.mantissaBitsWithoutImplicit := by
        exact_mod_cast two_pow_mantissaBits spec
      rw [hbits]
      nlinarith

/-- Of two numbers the greater one has no lesser nearest value. -/
theorem IsNearest.mono {x' y y' : ℝ} (h : IsNearest spec x y) (h' : IsNearest spec x' y')
    (hy : IsValue spec y) (hy' : IsValue spec y') (hle : x ≤ x') : y ≤ y' := by
  by_contra hgt
  have hlt := not_le.1 hgt
  -- both numbers lie between the two values
  have habove : x' < y := not_le.1 fun hge => hgt (h'.value_le y hy hge)
  obtain ⟨t, hmin, hfits, hunit⟩ := hy'.add_le hy hlt
  have hx : x < 2 ^ spec.mantissaBits * 2 ^ t := (hle.trans_lt habove).trans_le hfits
  have hx' : x' < 2 ^ spec.mantissaBits * 2 ^ t := habove.trans_le hfits
  have herror := le_of_abs_le (h.abs_sub_le t hmin hx)
  have herror' := neg_le_of_abs_le (h'.abs_sub_le t hmin hx')
  -- so both are the one in the middle, and ties go to an even number of units
  have htie : |y - x| = 2 ^ t / 2 := by
    rw [abs_of_pos (by linarith)]
    linarith
  have htie' : |y' - x'| = 2 ^ t / 2 := by
    have hpos : (0 : ℝ) < 2 ^ t := by positivity
    rw [abs_of_neg (by linarith)]
    linarith
  obtain ⟨n, hn, rfl⟩ := h.even t hmin hx htie
  obtain ⟨n', hn', rfl⟩ := h'.even t hmin hx' htie'
  have hnext : (n : ℝ) = (n' + 1 : ℕ) := by
    have hpos : (0 : ℝ) < 2 ^ t := by positivity
    apply mul_right_cancel₀ hpos.ne'
    push_cast
    linarith
  have hnext' : n = n' + 1 := by exact_mod_cast hnext
  omega

/-- The parts that a magnitude is rounded to. -/
def IsRounded (spec : Format) (s : Sign) (x : ℝ) (u : UnpackedFloat) : Prop :=
  (u = .zero s ∧ IsNearest spec x 0) ∨
    ∃ m e, ∃ h : IsCanonical spec m e, u = .finite s m e h.pos ∧ IsNearest spec x (m * 2 ^ e)

/-! ## Results -/

/-- What an accuracy tells of is no less than nothing. -/
theorem Tells.nonneg {a : Accuracy} {part : ℝ} (h : Tells a part) : 0 ≤ part := by
  rcases a with _ | o
  · exact h.ge
  · cases o
    · exact h.1.le
    · exact h.symm ▸ by norm_num
    · exact le_trans (by norm_num) h.1.le

theorem isRounded_round (s : Sign) (hm : 0 < m ∨ e ≤ spec.minExponent)
    (hbits : e ≤ spec.targetExponent (totalExponent m e)) {a : Accuracy}
    (h : Tells a (x / 2 ^ e - m)) : IsRounded spec s x (roundWithAccuracy spec s m e a) := by
  have hle : (m : ℝ) * 2 ^ e ≤ x := by
    rw [← le_div_iff₀ (by positivity)]
    exact sub_nonneg.1 h.nonneg
  have hfull : spec.minExponent < spec.targetExponent (totalExponent m e) →
      (2 : ℝ) ^ spec.mantissaBitsWithoutImplicit * 2 ^ spec.targetExponent (totalExponent m e) ≤
        x := fun hmin => by
    have hpos : 0 < m := hm.elim id fun he => pos_of_targetExponent_ne he hmin.ne'
    have hunit := @two_zpow_targetExponent_le spec m e x hpos hle
    rw [le_max_iff, or_iff_left (not_le.2 (zpow_lt_zpow_right₀ one_lt_two hmin)),
      le_div_iff₀ (by positivity), mul_comm] at hunit
    exact hunit
  have hnearest := isNearest_of_abs_sub_le hfull (abs_rounded_sub_le hbits h)
    (standsFor_shifted hbits h).even
  obtain ⟨hnone, hzero⟩ | ⟨m', e', hcanonical, hfinite, hvalue⟩ := round_cases s hm hbits a
  · rw [hnone, Nat.cast_zero, zero_mul] at hnearest
    exact .inl ⟨hzero, hnearest⟩
  · rw [← hvalue] at hnearest
    exact .inr ⟨m', e', hcanonical, hfinite, hnearest⟩

theorem log2_mul_two_pow (hm : 0 < m) (k : ℕ) : (m * 2 ^ k).log2 = m.log2 + k := by
  have hpos := Nat.two_pow_pos k
  rw [Nat.log2_eq_iff (Nat.mul_pos hm hpos).ne', pow_add, add_right_comm, pow_add]
  exact ⟨Nat.mul_le_mul_right _ (Nat.log2_self_le hm.ne'),
    Nat.mul_lt_mul_of_pos_right Nat.lt_log2_self hpos⟩

/-- A mantissa of any length is rounded, with bits of zero added where it is too short. -/
theorem isRounded_exact (s : Sign) (hm : 0 < m) (e : ℤ) :
    IsRounded spec s (m * 2 ^ e) (UnpackedFloat.round spec s m e) := by
  obtain ⟨k, hk⟩ : ∃ k, k = (e - spec.targetExponent (totalExponent m e)).toNat := ⟨_, rfl⟩
  have hshift : m <<< k = m * 2 ^ k := Nat.shiftLeft_eq m k
  have htotal : totalExponent (m <<< k) (e - k) = totalExponent m e := by
    unfold totalExponent
    rw [hshift, log2_mul_two_pow hm]
    push_cast
    ring
  have hexact : Tells .exact ((m : ℝ) * 2 ^ e / 2 ^ (e - k : ℤ) - (m <<< k : ℕ)) := by
    show _ = (0 : ℝ)
    rw [hshift, zpow_sub₀ two_ne_zero, zpow_natCast]
    push_cast
    field_simp
    ring
  have hround : UnpackedFloat.round spec s m e =
      roundWithAccuracy spec s (m <<< k) (e - k) .exact := by
    rw [hk]
    rfl
  rw [hround]
  apply isRounded_round s _ _ hexact
  · left
    rw [hshift]
    positivity
  · rw [htotal]
    omega

theorem tells_accuracyOfFraction {num den : ℕ} (h : num < den) :
    Tells (accuracyOfFraction num den) (num / den) := by
  have hden : (0 : ℝ) < den := by exact_mod_cast Nat.zero_lt_of_lt h
  unfold accuracyOfFraction
  split_ifs with hnone
  · rw [hnone]
    simp [Tells]
  · have hnum : (0 : ℝ) < num := by exact_mod_cast Nat.pos_of_ne_zero hnone
    have hlt : (num : ℝ) < den := by exact_mod_cast h
    rcases lt_trichotomy (2 * num) den with hcompare | hcompare | hcompare
    · have hcast : (2 : ℝ) * num < den := by exact_mod_cast hcompare
      rw [compare_lt_iff_lt.2 hcompare]
      exact ⟨by positivity, by rw [div_lt_iff₀ hden]; linarith⟩
    · have hcast : (2 : ℝ) * num = den := by exact_mod_cast hcompare
      rw [compare_eq_iff_eq.2 hcompare]
      show (num : ℝ) / den = 1 / 2
      rw [← hcast]
      field_simp
    · have hcast : (den : ℝ) < 2 * num := by exact_mod_cast hcompare
      rw [compare_gt_iff_gt.2 hcompare]
      exact ⟨by rw [lt_div_iff₀ hden]; linarith, by rwa [div_lt_one hden]⟩

/-- The mantissa of a quotient fills the format, or its exponent is the least one or below it. -/
theorem divCore_bits {n : ℕ} {d : ℤ} (hm : 0 < m) (hn : 0 < n) :
    (2 ^ spec.mantissaBitsWithoutImplicit ≤ (divCore spec m e n d).1 ∨
      (divCore spec m e n d).2.1 ≤ spec.minExponent) ∧
        (divCore spec m e n d).2.1 ≤ spec.targetExponent
          (totalExponent (divCore spec m e n d).1 (divCore spec m e n d).2.1) := by
  unfold divCore
  dsimp only
  generalize htarget : min (e - d) _ = t
  have hleast : ∀ k, t ≤ spec.minExponent → t ≤ spec.targetExponent k :=
    fun k h => h.trans (le_max_right _ _)
  rcases le_or_gt t spec.minExponent with hmin | hmin
  · exact ⟨.inr hmin, hleast _ hmin⟩
  -- above the least exponent, the dividend has been shifted far enough
  have hshift : n.log2 + spec.mantissaBits ≤ m.log2 + (e - d - t).toNat := by
    unfold Format.targetExponent totalExponent at htarget
    omega
  have hfull : 2 ^ spec.mantissaBitsWithoutImplicit ≤ m <<< (e - d - t).toNat / n := by
    rw [Nat.le_div_iff_mul_le hn, Nat.shiftLeft_eq]
    calc 2 ^ spec.mantissaBitsWithoutImplicit * n
        ≤ 2 ^ spec.mantissaBitsWithoutImplicit * 2 ^ (n.log2 + 1) :=
          Nat.mul_le_mul_left _ Nat.lt_log2_self.le
      _ = 2 ^ (n.log2 + spec.mantissaBits) := by
          rw [← pow_add]
          congr 1
          unfold Format.mantissaBits
          omega
      _ ≤ 2 ^ (m.log2 + (e - d - t).toNat) := Nat.pow_le_pow_right two_pos hshift
      _ ≤ m * 2 ^ (e - d - t).toNat := by
          rw [pow_add]
          exact Nat.mul_le_mul_right _ (Nat.log2_self_le hm.ne')
  refine ⟨.inl hfull, ?_⟩
  have hlog := (Nat.le_log2 ((Nat.two_pow_pos _).trans_le hfull).ne').2 hfull
  rw [targetExponent_eq]
  apply le_max_of_le_left
  omega

/-- A quotient is rounded once. -/
theorem isRounded_div (s : Sign) {n : ℕ} {d : ℤ} (hm : 0 < m) (hn : 0 < n) :
    IsRounded spec s (m * 2 ^ e / (n * 2 ^ d)) (roundWithAccuracy spec s
      (divCore spec m e n d).1 (divCore spec m e n d).2.1 (divCore spec m e n d).2.2) := by
  obtain ⟨hfull, hbits⟩ := @divCore_bits spec m e n d hm hn
  apply isRounded_round s (hfull.imp_left (Nat.two_pow_pos _).trans_le) hbits
  unfold divCore
  dsimp only
  generalize htarget : min (e - d) _ = t
  obtain ⟨k, hk⟩ : ∃ k : ℕ, e - d - t = k := ⟨(e - d - t).toNat, by omega⟩
  have hexponent : e = d + t + k := by omega
  rw [hk, Int.toNat_natCast, Nat.shiftLeft_eq]
  have hpart : (m : ℝ) * 2 ^ e / (n * 2 ^ d) / 2 ^ t - (m * 2 ^ k / n : ℕ) =
      (m * 2 ^ k % n : ℕ) / n := by
    have hn' : (n : ℝ) ≠ 0 := by exact_mod_cast hn.ne'
    have hsplit : (m : ℝ) * 2 ^ k = n * (m * 2 ^ k / n : ℕ) + (m * 2 ^ k % n : ℕ) := by
      exact_mod_cast (Nat.div_add_mod (m * 2 ^ k) n).symm
    rw [hexponent, zpow_add₀ two_ne_zero, zpow_add₀ two_ne_zero, zpow_natCast]
    field_simp
    linarith
  rw [hpart]
  exact tells_accuracyOfFraction (Nat.mod_lt _ hn)

/-- The root of a whole number and what is left of it tell how the exact root goes on. -/
theorem tells_sqrt (n : ℕ) : Tells (if n - n.sqrt * n.sqrt = 0 then .exact
    else .inexact (if n - n.sqrt * n.sqrt ≤ n.sqrt then .lt else .gt)) (√n - n.sqrt) := by
  have hlow := Nat.sqrt_le n
  have hhigh := Nat.lt_succ_sqrt n
  generalize n.sqrt = root at hlow hhigh ⊢
  have hroot : (0 : ℝ) ≤ root := root.cast_nonneg
  split_ifs with hnone hless
  · have hsquare : (n : ℝ) = root * root := by exact_mod_cast (by omega : n = root * root)
    show √n - root = 0
    rw [hsquare, Real.sqrt_mul_self hroot, sub_self]
  · have hmore : (root : ℝ) * root < n := by exact_mod_cast (by omega : root * root < n)
    have hsmall : (n : ℝ) ≤ root * root + root := by
      exact_mod_cast (by omega : n ≤ root * root + root)
    refine ⟨?_, ?_⟩
    · rw [sub_pos]
      exact Real.lt_sqrt_of_sq_lt (by rwa [sq])
    · rw [sub_lt_iff_lt_add', Real.sqrt_lt' (by linarith)]
      nlinarith
  · have hlarge : (root : ℝ) * root + root + 1 ≤ n := by
      exact_mod_cast (by omega : root * root + root + 1 ≤ n)
    have hbound : (n : ℝ) < (root + 1) * (root + 1) := by exact_mod_cast hhigh
    refine ⟨?_, ?_⟩
    · rw [lt_sub_iff_add_lt]
      exact Real.lt_sqrt_of_sq_lt (by nlinarith)
    · rw [sub_lt_iff_lt_add', Real.sqrt_lt' (by linarith)]
      nlinarith

/-- The mantissa of a root fills the format, or its exponent is the least one or below it. -/
theorem sqrtCore_bits (hm : 0 < m) :
    (2 ^ spec.mantissaBitsWithoutImplicit ≤ (sqrtCore spec m e).1 ∨
      (sqrtCore spec m e).2.1 ≤ spec.minExponent) ∧
        (sqrtCore spec m e).2.1 ≤ spec.targetExponent
          (totalExponent (sqrtCore spec m e).1 (sqrtCore spec m e).2.1) := by
  unfold sqrtCore
  dsimp only
  have hhalf : ∀ k : ℤ, k.ediv 2 = k / 2 := fun _ => rfl
  rw [hhalf, hhalf]
  generalize htarget : min (e / 2) _ = t
  rcases le_or_gt t spec.minExponent with hmin | hmin
  · exact ⟨.inr hmin, hmin.trans (le_max_right _ _)⟩
  -- above the least exponent, the square has been shifted far enough
  have hshift : 2 * spec.mantissaBitsWithoutImplicit ≤ m.log2 + (e - 2 * t).toNat := by
    unfold Format.targetExponent totalExponent Format.mantissaBits at htarget
    omega
  have hfull : 2 ^ spec.mantissaBitsWithoutImplicit ≤ (m <<< (e - 2 * t).toNat).sqrt := by
    rw [Nat.le_sqrt, ← pow_add, ← two_mul, Nat.shiftLeft_eq]
    calc 2 ^ (2 * spec.mantissaBitsWithoutImplicit)
        ≤ 2 ^ (m.log2 + (e - 2 * t).toNat) := Nat.pow_le_pow_right two_pos hshift
      _ ≤ m * 2 ^ (e - 2 * t).toNat := by
          rw [pow_add]
          exact Nat.mul_le_mul_right _ (Nat.log2_self_le hm.ne')
  refine ⟨.inl hfull, ?_⟩
  have hlog := (Nat.le_log2 ((Nat.two_pow_pos _).trans_le hfull).ne').2 hfull
  rw [targetExponent_eq]
  apply le_max_of_le_left
  omega

/-- A root is rounded once. -/
theorem isRounded_sqrt (s : Sign) (hm : 0 < m) :
    IsRounded spec s (√(m * 2 ^ e)) (roundWithAccuracy spec s
      (sqrtCore spec m e).1 (sqrtCore spec m e).2.1 (sqrtCore spec m e).2.2) := by
  obtain ⟨hfull, hbits⟩ := @sqrtCore_bits spec m e hm
  apply isRounded_round s (hfull.imp_left (Nat.two_pow_pos _).trans_le) hbits
  unfold sqrtCore
  dsimp only
  generalize htarget : min (e.ediv 2) _ = t
  have hle : t ≤ e / 2 := by
    rw [← htarget]
    exact min_le_left _ _
  obtain ⟨k, hk⟩ : ∃ k : ℕ, e - 2 * t = k := ⟨(e - 2 * t).toNat, by omega⟩
  have hexponent : e = k + (t + t) := by omega
  -- the exact root in units of the place is that of the shifted mantissa
  have hunits : √(m * 2 ^ e : ℝ) / 2 ^ t = √(m <<< (e - 2 * t).toNat : ℕ) := by
    have hunit : (0 : ℝ) ≤ 2 ^ t := by positivity
    rw [hk, Int.toNat_natCast, Nat.shiftLeft_eq, hexponent, zpow_add₀ two_ne_zero,
      zpow_add₀ two_ne_zero, zpow_natCast, ← mul_assoc, Real.sqrt_mul (by positivity),
      Real.sqrt_mul_self hunit, mul_div_cancel_right₀ _ (by positivity)]
    push_cast
    rfl
  rw [hunits]
  exact tells_sqrt _

end Binary

end Toolpath
