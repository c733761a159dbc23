import Toolpath.Proofs.PatternTheorems

/-!
# Shortest decimals

The decimal that is printed for a machine number lies in the interval of all that rounds to it
(`shortestDecimal_holds`): the grids that are tried become fine enough to hit the interval, whatever
its width. So reading the decimal comes to the same number (`Decimal.toDouble_eq`).
-/

namespace Toolpath.Number

variable {f : BinaryFormat} {m : ℕ} {e : ℤ}

/-! ## Decimal exponents -/

namespace Ratio

/-- Where `10 ^ a` is close to `2 ^ b`, an exponent of two times `a / b` is one of ten. -/
theorem ten_zpow_le_of_close {a b : ℕ} (hb : 0 < b) (hlow : Nat.pow 2 b ≤ Nat.pow 10 a)
    (hhigh : Nat.pow 10 a ≤ 10 * Nat.pow 2 b) {k g : ℤ} (hk : k ≤ b) (hg : g * b ≤ k * a) :
    (10 : ℝ) ^ (g - 1) ≤ 2 ^ k := by
  have hlow' : (2 : ℝ) ^ b ≤ 10 ^ a := by exact_mod_cast (show 2 ^ b ≤ 10 ^ a from hlow)
  have hhigh' : (10 : ℝ) ^ a ≤ 10 * 2 ^ b := by
    exact_mod_cast (show 10 ^ a ≤ 10 * 2 ^ b from hhigh)
  have hclose : ((10 : ℝ) ^ a) ^ k ≤ 10 ^ (b : ℤ) * (2 ^ b) ^ k := by
    rcases le_or_gt 0 k with hpos | hneg
    · calc ((10 : ℝ) ^ a) ^ k ≤ (10 * 2 ^ b) ^ k := zpow_le_zpow_left₀ hpos (by positivity) hhigh'
        _ = 10 ^ k * (2 ^ b) ^ k := mul_zpow _ _ _
        _ ≤ 10 ^ (b : ℤ) * (2 ^ b) ^ k :=
          mul_le_mul_of_nonneg_right (zpow_le_zpow_right₀ (by norm_num) hk) (by positivity)
    · calc ((10 : ℝ) ^ a) ^ k ≤ (2 ^ b) ^ k := by
            rw [← neg_neg k, zpow_neg, zpow_neg _ (-k)]
            exact inv_anti₀ (by positivity)
              (zpow_le_zpow_left₀ (by omega) (by positivity) hlow')
        _ ≤ 10 ^ (b : ℤ) * (2 ^ b) ^ k :=
          le_mul_of_one_le_left (by positivity) (one_le_zpow₀ (by norm_num) (by omega))
  refine (pow_le_pow_iff_left₀ (by positivity) (by positivity) hb.ne').1 ?_
  calc ((10 : ℝ) ^ (g - 1)) ^ b = 10 ^ (g * b - b) := by
        rw [← zpow_natCast, ← zpow_mul, sub_mul, one_mul]
    _ ≤ 10 ^ (k * a - b) := zpow_le_zpow_right₀ (by norm_num) (by omega)
    _ = ((10 : ℝ) ^ a) ^ k / 10 ^ (b : ℤ) := by
        rw [zpow_sub₀ (by norm_num), mul_comm, zpow_mul, zpow_natCast]
    _ ≤ (2 ^ b) ^ k := (div_le_iff₀' (by positivity)).2 hclose
    _ = (2 ^ k) ^ b := by
        rw [← zpow_natCast, ← zpow_natCast, ← zpow_mul, ← zpow_mul, mul_comm]

/-- The exponent that is guessed for a power of two is at most one too great. -/
theorem ten_zpow_guess_le {k : ℤ} (h : k ≤ 100000) :
    (10 : ℝ) ^ (Int.fdiv (k * 30103) 100000 - 1) ≤ 2 ^ k := by
  have hlow : Nat.pow 2 100000 ≤ Nat.pow 10 30103 := by decide +kernel
  have hhigh : Nat.pow 10 30103 ≤ 10 * Nat.pow 2 100000 := by decide +kernel
  have hguess : Int.fdiv (k * 30103) 100000 * 100000 ≤ k * 30103 := by
    rw [Int.fdiv_eq_ediv_of_nonneg _ (by decide)]
    omega
  exact ten_zpow_le_of_close (by decide) hlow hhigh h hguess

/-- No ratio is less than the power of ten of its exponent. -/
theorem ten_zpow_log10_le {r : Ratio} (hnum : 0 < r.num) (hden : 0 < r.den)
    (h : Int.log 2 r.toReal ≤ 100000) : (10 : ℝ) ^ r.log10 ≤ r.toReal := by
  have hpos : 0 < r.toReal := div_pos (by exact_mod_cast hnum) (by exact_mod_cast hden)
  have hguess := ten_zpow_guess_le h
  have hlog : (2 : ℝ) ^ Int.log 2 r.toReal ≤ r.toReal := by
    exact_mod_cast Int.zpow_log_le_self one_lt_two hpos
  have hpow : ∀ k, powLe 10 k r = true → (10 : ℝ) ^ k ≤ r.toReal := fun k hle => by
    exact_mod_cast (powLe_iff (by decide) k hden).1 hle
  unfold log10
  rw [log2_eq hnum hden]
  dsimp only
  split_ifs with hmore hless
  · exact hpow _ hmore
  · exact hpow _ hless
  · exact hguess.trans hlog

end Ratio

namespace RoundingInterval

variable {i : RoundingInterval} {tie : DecimalTie} {unit : Ratio} {digits : ℕ}

/-! ## Grids -/

/-- The unit of an interval in steps of `10 ^ position`. -/
def unitAt (exponent position : ℤ) : Ratio :=
  ((Ratio.ofNat 1).scale 2 (exponent - 2)).scale 10 (-position)

theorem den_unitAt_pos (exponent position : ℤ) : 0 < (unitAt exponent position).den :=
  Ratio.den_scale_pos (by decide) (Ratio.den_scale_pos two_pos one_pos _) _

theorem toReal_unitAt (exponent position : ℤ) :
    (unitAt exponent position).toReal = 2 ^ (exponent - 2) / 10 ^ position := by
  unfold unitAt
  rw [Ratio.toReal_scale (by decide), Ratio.toReal_scale two_pos, Ratio.toReal_ofNat, Nat.cast_one,
    one_mul, zpow_neg, div_eq_mul_inv]
  push_cast
  rfl

/-- A decimal of a grid lies where the exact test says. -/
theorem holds_of_contains {position : ℤ} (h : i.contains (unitAt e position) digits = true) :
    i.Holds (2 ^ (e - 2)) (digits * 10 ^ position) := by
  have hden : (0 : ℝ) < (unitAt e position).den := by exact_mod_cast den_unitAt_pos e position
  have hpow : (0 : ℝ) < 10 ^ position / (unitAt e position).den := by positivity
  -- both sides of the exact test times one factor
  have hdecimal : (digits : ℝ) * 10 ^ position =
      (digits * (unitAt e position).den : ℕ) * (10 ^ position / (unitAt e position).den) := by
    push_cast
    field_simp
  have hend : ∀ a : ℕ, (a : ℝ) * 2 ^ (e - 2) =
      (a * (unitAt e position).num : ℕ) * (10 ^ position / (unitAt e position).den) := by
    intro a
    have hvalue := toReal_unitAt e position
    unfold Ratio.toReal at hvalue
    rw [div_eq_div_iff hden.ne' (by positivity)] at hvalue
    push_cast
    rw [mul_div_assoc', eq_div_iff hden.ne', mul_assoc, ← hvalue, mul_assoc]
  unfold contains at h
  unfold Holds
  rw [hdecimal, hend, hend]
  split_ifs at h ⊢
  · obtain ⟨hlow, hhigh⟩ := of_decide_eq_true h
    exact ⟨mul_le_mul_of_nonneg_right (Nat.cast_le.2 hlow) hpow.le,
      mul_le_mul_of_nonneg_right (Nat.cast_le.2 hhigh) hpow.le⟩
  · obtain ⟨hlow, hhigh⟩ := of_decide_eq_true h
    exact ⟨mul_lt_mul_of_pos_right (Nat.cast_lt.2 hlow) hpow,
      mul_lt_mul_of_pos_right (Nat.cast_lt.2 hhigh) hpow⟩

theorem contains_of_nearest? (h : i.nearest? tie unit = some digits) :
    i.contains unit digits = true := by
  unfold nearest? at h
  dsimp only at h
  split at h
  case h_1 hbelow habove =>
    cases h
    split_ifs
    · exact hbelow
    · exact habove
  case h_2 hbelow _ =>
    cases h
    exact hbelow
  case h_3 _ habove =>
    cases h
    exact habove
  case h_4 => cases h

/-- A grid with a step below the way from the middle to the upper end hits the interval. -/
theorem isSome_nearest? (hlower : i.lower ≤ i.middle) (hupper : i.upper = i.middle + 2)
    (hden : 0 < unit.den) (hstep : unit.den < 2 * unit.num) :
    (i.nearest? tie unit).isSome = true := by
  have hsplit := Nat.div_add_mod (i.middle * unit.num) unit.den
  have hrest := Nat.mod_lt (i.middle * unit.num) hden
  have habove : i.contains unit (i.middle * unit.num / unit.den + 1) = true := by
    have hlow : i.lower * unit.num ≤ i.middle * unit.num := Nat.mul_le_mul_right _ hlower
    have hnext : (i.middle * unit.num / unit.den + 1) * unit.den =
        unit.den * (i.middle * unit.num / unit.den) + unit.den := by ring
    unfold contains
    rw [hnext, hupper, add_mul]
    split_ifs
    · exact decide_eq_true ⟨by omega, by omega⟩
    · exact decide_eq_true ⟨by omega, by omega⟩
  unfold nearest?
  dsimp only
  rw [habove]
  cases i.contains unit (i.middle * unit.num / unit.den) <;> rfl

theorem shortest_of_some {position : ℤ} (fuel : ℕ)
    (h : i.nearest? tie (unitAt e position) = some digits) :
    i.shortest tie e position (fuel + 1) = (digits, position) := by
  unfold unitAt at h
  rw [shortest, h]

theorem shortest_of_none {position : ℤ} (fuel : ℕ)
    (h : i.nearest? tie (unitAt e position) = none) :
    i.shortest tie e position (fuel + 1) = i.shortest tie e (position - 1) fuel := by
  unfold unitAt at h
  rw [shortest, h]

/-- The first grid that hits the interval gives a decimal in it. -/
theorem holds_shortest {fuel : ℕ} {position : ℤ}
    (h : ∃ k < fuel, (i.nearest? tie (unitAt e (position - k))).isSome = true) :
    i.Holds (2 ^ (e - 2)) ((i.shortest tie e position fuel).1 *
      10 ^ (i.shortest tie e position fuel).2) := by
  induction fuel generalizing position with
  | zero =>
    obtain ⟨k, hk, -⟩ := h
    exact absurd hk (Nat.not_lt_zero k)
  | succ fuel ih =>
    cases hnearest : i.nearest? tie (unitAt e position) with
    | some digits =>
      rw [shortest_of_some fuel hnearest]
      exact holds_of_contains (contains_of_nearest? hnearest)
    | none =>
      rw [shortest_of_none fuel hnearest]
      obtain ⟨k, hk, hhit⟩ := h
      obtain _ | k := k
      · rw [Nat.cast_zero, sub_zero, hnearest] at hhit
        cases hhit
      · refine ih ⟨k, Nat.lt_of_succ_lt_succ hk, ?_⟩
        rwa [sub_sub, add_comm, ← Nat.cast_add_one]

end RoundingInterval

/-- Zeros at the end say nothing but the position. -/
theorem dropZeros_mul (fuel digits : ℕ) (position : ℤ) :
    ((dropZeros fuel digits position).1 : ℝ) * 10 ^ (dropZeros fuel digits position).2 =
      digits * 10 ^ position := by
  induction fuel generalizing digits position with
  | zero => rfl
  | succ fuel ih =>
    unfold dropZeros
    split_ifs with hzero
    · have hdigits : ((digits / 10 : ℕ) : ℝ) * 10 = digits := by
        exact_mod_cast Nat.div_mul_cancel (Nat.dvd_of_mod_eq_zero hzero)
      rw [ih, zpow_add_one₀ (by norm_num), ← hdigits]
      ring
    · rfl

/-- Nineteen places behind the leading digit of a magnitude the grid is finer than its interval. -/
theorem den_unitAt_lt (hbits : f.fractionBits ≤ 61) (hm : 0 < m) (hlt : m < 2 * f.hiddenBit)
    (he : e ≤ 10000) :
    (RoundingInterval.unitAt e (((Ratio.ofNat m).scale 2 e).log10 - 19)).den <
      2 * (RoundingInterval.unitAt e (((Ratio.ofNat m).scale 2 e).log10 - 19)).num := by
  have hvalue : ((Ratio.ofNat m).scale 2 e).toReal = m * 2 ^ e := by
    rw [Ratio.toReal_scale two_pos, Ratio.toReal_ofNat, Nat.cast_ofNat]
  have hden : 0 < ((Ratio.ofNat m).scale 2 e).den := Ratio.den_scale_pos two_pos one_pos e
  generalize (Ratio.ofNat m).scale 2 e = r at hvalue hden ⊢
  have hpos : 0 < r.toReal := by
    rw [hvalue]
    positivity
  have hnum := Ratio.num_pos_of_toReal_pos hpos
  have hhigh : r.toReal < 2 ^ (62 + e) := by
    have hwidth : 2 * f.hiddenBit ≤ 2 ^ 62 :=
      (Nat.mul_le_mul_left 2 (Nat.pow_le_pow_right two_pos hbits)).trans_eq (by norm_num)
    have hless : (m : ℝ) < 2 ^ 62 := by exact_mod_cast hlt.trans_le hwidth
    rw [hvalue, zpow_add₀ two_ne_zero]
    exact mul_lt_mul_of_pos_right (by exact_mod_cast hless) (by positivity)
  have hlog : Int.log 2 r.toReal < 62 + e :=
    (Int.lt_zpow_iff_log_lt one_lt_two hpos).1 (by exact_mod_cast hhigh)
  have hplace := Ratio.ten_zpow_log10_le hnum hden (by omega)
  have hdenominator : (0 : ℝ) < (RoundingInterval.unitAt e (r.log10 - 19)).den := by
    exact_mod_cast RoundingInterval.den_unitAt_pos _ _
  -- nineteen places hold more than the 62 bits that a mantissa can have
  have hunit : 1 < 2 * (RoundingInterval.unitAt e (r.log10 - 19)).toReal := by
    rw [RoundingInterval.toReal_unitAt, mul_div_assoc', one_lt_div (by positivity)]
    calc (10 : ℝ) ^ (r.log10 - 19) = 10 ^ r.log10 / 10 ^ 19 := by
          rw [zpow_sub₀ (by norm_num)]
          norm_cast
      _ < 2 ^ (62 + e) / 10 ^ 19 :=
          div_lt_div_of_pos_right (hplace.trans_lt hhigh) (by positivity)
      _ ≤ 2 * 2 ^ (e - 2) := by
          rw [zpow_add₀ two_ne_zero, zpow_sub₀ two_ne_zero, div_le_iff₀ (by positivity)]
          have hunit : (0 : ℝ) < 2 ^ e := by positivity
          norm_num
          linarith
  unfold Ratio.toReal at hunit
  rw [mul_div_assoc', one_lt_div hdenominator] at hunit
  exact_mod_cast hunit

/-- The shortest decimal of a magnitude lies in the interval that rounds to it. -/
theorem holds_shortestDecimal (tie : DecimalTie) (hbits : f.fractionBits ≤ 61) (hm : 0 < m)
    (hlt : m < 2 * f.hiddenBit) (he : e ≤ 10000) :
    (RoundingInterval.ofMantissa f m e).Holds (2 ^ (e - 2))
      ((shortestDecimal f tie m e).1 * 10 ^ (shortestDecimal f tie m e).2) := by
  have hlower : (RoundingInterval.ofMantissa f m e).lower ≤
      (RoundingInterval.ofMantissa f m e).middle := by
    unfold RoundingInterval.ofMantissa
    dsimp only
    split_ifs <;> omega
  have hhit : ((RoundingInterval.ofMantissa f m e).nearest? tie
      (RoundingInterval.unitAt e (((Ratio.ofNat m).scale 2 e).log10 - (19 : ℕ)))).isSome = true :=
    RoundingInterval.isSome_nearest? hlower rfl (RoundingInterval.den_unitAt_pos e _)
      (den_unitAt_lt hbits hm hlt he)
  have hfound : ∃ k < 20, ((RoundingInterval.ofMantissa f m e).nearest? tie
      (RoundingInterval.unitAt e (((Ratio.ofNat m).scale 2 e).log10 - (k : ℕ)))).isSome = true :=
    ⟨19, by decide, hhit⟩
  unfold shortestDecimal
  dsimp only
  rw [dropZeros_mul]
  exact RoundingInterval.holds_shortest hfound

/-! ## Reading back -/

namespace Decimal

variable {d : Decimal} {x : Float}

theorem isStored_of_doubleDatum {negative : Bool} (hx : doubleDatum x = .finite negative m e) :
    BinaryFormat.double.IsStored m e := by
  have hlt : x.toBits.toNat < 2 * BinaryFormat.double.signWeight := x.toBits.toNat_lt
  obtain ⟨hnan, -⟩ | ⟨_, hinfinite, -⟩ | ⟨_, _, _, hfinite, hstored, -⟩ :=
    BinaryFormat.decode_cases hlt
  · exact absurd (hnan.symm.trans hx) Datum.noConfusion
  · exact absurd (hinfinite.symm.trans hx) Datum.noConfusion
  · cases hfinite.symm.trans hx
    exact hstored

/-- The exponents of finite numbers. -/
theorem exponent_mem (h : BinaryFormat.double.IsStored m e) : -1074 ≤ e ∧ e ≤ 971 := by
  obtain ⟨-, hle, hfull, hfinite⟩ := h
  unfold BinaryFormat.magnitudeBits at hfinite
  rw [Double.minExponent_double] at hle hfull hfinite
  rw [Double.hiddenBit_double] at hfull hfinite
  rw [Double.infinityBits_double] at hfinite
  omega

/-- What lies in the interval of a number is read without regard to its size. -/
theorem size_mem (hm : 0 < m) (hstored : BinaryFormat.double.IsStored m e)
    (h : (RoundingInterval.ofMantissa .double m e).Holds (2 ^ (e - 2)) d.magnitude) :
    0 < d.digits ∧ -400 ≤ d.exponent + (Nat.toDigits 10 d.digits).length ∧
      d.exponent + (Nat.toDigits 10 d.digits).length ≤ 400 := by
  obtain ⟨hleast, hgreatest⟩ := exponent_mem hstored
  obtain ⟨hlow, hhigh⟩ := abs_le.1 (BinaryFormat.abs_sub_le_of_holds hm h).1
  have hback : d.magnitude = d.magnitude * 2 ^ (-e) * 2 ^ e := by
    rw [zpow_neg, inv_mul_cancel_right₀ (by positivity)]
  have hone : (1 : ℝ) ≤ m := by exact_mod_cast hm
  have hless : (m : ℝ) + 1 ≤ 2 ^ 53 := by exact_mod_cast hstored.lt
  -- a decimal place is worth three bits at least
  have hpow : ∀ k : ℕ, (2 : ℝ) ^ (3 * k) ≤ 10 ^ k := fun k => by
    rw [pow_mul]
    exact pow_le_pow_left₀ (by norm_num) (by norm_num) k
  have habove : ((10 : ℕ) : ℝ) ^ (-401 : ℤ) ≤ d.magnitude := by
    calc ((10 : ℕ) : ℝ) ^ (-401 : ℤ) = ((10 : ℝ) ^ 401)⁻¹ := by
          rw [zpow_neg]
          norm_cast
      _ ≤ ((2 : ℝ) ^ (3 * 401))⁻¹ := inv_anti₀ (by positivity) (hpow 401)
      _ = 2 ^ (-(3 * 401 : ℕ) : ℤ) := by rw [zpow_neg, zpow_natCast]
      _ ≤ 2 ^ (-1 + e) := zpow_le_zpow_right₀ one_le_two (by omega)
      _ = 2⁻¹ * 2 ^ e := by rw [zpow_add₀ two_ne_zero, zpow_neg_one]
      _ ≤ d.magnitude * 2 ^ (-e) * 2 ^ e :=
        mul_le_mul_of_nonneg_right (by linarith) (by positivity)
      _ = d.magnitude := hback.symm
  have hbelow : d.magnitude < ((10 : ℕ) : ℝ) ^ (400 : ℤ) := by
    calc d.magnitude = d.magnitude * 2 ^ (-e) * 2 ^ e := hback
      _ ≤ 2 ^ 53 * 2 ^ e := mul_le_mul_of_nonneg_right (by linarith) (by positivity)
      _ = 2 ^ (53 + e) := by
          rw [zpow_add₀ two_ne_zero]
          norm_cast
      _ < 2 ^ ((3 * 400 : ℕ) : ℤ) := zpow_lt_zpow_right₀ one_lt_two (by omega)
      _ = 2 ^ (3 * 400) := zpow_natCast _ _
      _ ≤ 10 ^ 400 := hpow 400
      _ = ((10 : ℕ) : ℝ) ^ (400 : ℤ) := by
          rw [Nat.cast_ofNat]
          exact (zpow_natCast 10 400).symm
  have hpos : 0 < d.magnitude := lt_of_lt_of_le (by positivity) habove
  have hdigits : 0 < d.digits := Nat.pos_of_ne_zero (mt magnitude_eq_zero.2 hpos.ne')
  have hlog := (Int.zpow_le_iff_le_log (by decide) hpos).1 habove
  have hlog' := (Int.lt_zpow_iff_log_lt (by decide) hpos).1 hbelow
  rw [size_eq hdigits]
  exact ⟨hdigits, by omega, by omega⟩

/-- A decimal that lies in the interval of a number is read as this number. -/
theorem toDouble_eq_of_holds (hm : 0 < m) (hx : doubleDatum x = .finite d.negative m e)
    (h : (RoundingInterval.ofMantissa .double m e).Holds (2 ^ (e - 2)) d.magnitude) :
    d.toDouble = x := by
  have hstored := isStored_of_doubleDatum hx
  obtain ⟨hdigits, hlow, hhigh⟩ := size_mem hm hstored h
  have hvalue : ((Ratio.ofNat d.digits).scale 10 d.exponent).toReal = d.magnitude := by
    rw [Ratio.toReal_scale (by decide), Ratio.toReal_ofNat]
    rfl
  have hvalue' : ((Ratio.ofNat m).scale 2 e).toReal = m * 2 ^ e := by
    rw [Ratio.toReal_scale two_pos, Ratio.toReal_ofNat, Nat.cast_ofNat]
  have hencode : BinaryFormat.double.encodeMagnitude ((Ratio.ofNat d.digits).scale 10 d.exponent) =
      BinaryFormat.double.encodeMagnitude ((Ratio.ofNat m).scale 2 e) := by
    rw [BinaryFormat.encodeMagnitude_of_holds (Ratio.den_scale_pos (by decide) one_pos _) hm hstored
      (by rwa [hvalue]), BinaryFormat.encodeMagnitude_of_eq (Ratio.den_scale_pos two_pos one_pos _)
      hstored hvalue']
  unfold toDouble
  dsimp only
  rw [if_neg (by omega), if_neg (by omega), ← doubleOfDatum_doubleDatum x, hx]
  unfold doubleOfRatio BinaryFormat.encode
  rw [hencode]
  rfl

/-- A zero is read with its sign. -/
theorem toDouble_eq_of_zero (hdigits : d.digits = 0) (hx : doubleDatum x = .finite d.negative 0 e) :
    d.toDouble = x := by
  have hnum : ((Ratio.ofNat 0).scale 2 e).num = 0 := by
    cases e with
    | ofNat k => exact Nat.zero_mul _
    | negSucc k => rfl
  have hencode : BinaryFormat.double.encodeMagnitude ((Ratio.ofNat 0).scale 2 e) = 0 := if_pos hnum
  unfold toDouble
  dsimp only
  rw [if_pos (.inl hdigits), ← doubleOfDatum_doubleDatum x, hx]
  show _ = Float.ofBits (UInt64.ofNat (BinaryFormat.double.withSign d.negative
    (BinaryFormat.double.encodeMagnitude ((Ratio.ofNat 0).scale 2 e))))
  rw [hencode]
  rfl

/-- The shortest digits of a number are read as this number. -/
theorem toDouble_of_shortest (tie : DecimalTie) (hx : doubleDatum x = .finite d.negative m e)
    (hzero : m = 0 → d.digits = 0)
    (hvalue : 0 < m → d.magnitude =
      (shortestDecimal .double tie m e).1 * 10 ^ (shortestDecimal .double tie m e).2) :
    d.toDouble = x := by
  rcases m.eq_zero_or_pos with rfl | hm
  · exact toDouble_eq_of_zero (hzero rfl) hx
  · have hstored := isStored_of_doubleDatum hx
    have hexponent : e ≤ 10000 := (exponent_mem hstored).2.trans (by decide)
    have hholds := holds_shortestDecimal tie (by decide) hm hstored.1 hexponent
    rw [← hvalue hm] at hholds
    exact toDouble_eq_of_holds hm hx hholds

end Decimal

end Toolpath.Number
