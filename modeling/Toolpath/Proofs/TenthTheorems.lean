import Toolpath.Word
import Toolpath.Scalar.Real
import Toolpath.Proofs.DoubleTheorems

/-!
# Numbers in tenths

The text of a code number shows it in tenths: `Number.tenths?` is the whole number of tenths that a
number rounds to.

* A text of tenths comes from one number of tenths only (`Number.tenths?_of_codeText`).
* What rounds to a number of tenths is within half a tenth of it, but for the error of the product
  with ten (`Number.abs_sub_le_of_tenths?`), and what is within half a tenth by more than that error
  rounds to it (`Number.tenths?_of_abs_sub_lt`).
-/

namespace Toolpath

open Number (Datum Ratio doubleDatum)

/-! ## Texts -/

/-- The text of a number of tenths. -/
def tenthsText (t : ℕ) : String := if t % 10 = 0 then toString (t / 10) else Number.pointText 1 t

theorem toList_toString (n : ℕ) : (toString n).toList = Nat.toDigits 10 n := Nat.toList_repr

theorem toString_injective {m n : ℕ} (h : toString m = toString n) : m = n := by
  have hdigits := congrArg String.toList h
  rw [toList_toString, toList_toString] at hdigits
  have hvalue := congrArg (Nat.ofDigitChars 10 · 0) hdigits
  rwa [Nat.ofDigitChars_ten_toDigits, Nat.ofDigitChars_ten_toDigits] at hvalue

theorem isDigit_of_mem {n : ℕ} {c : Char} (h : c ∈ (toString n).toList) : c.isDigit = true := by
  rw [toList_toString] at h
  exact Nat.isDigit_of_mem_toDigits (by decide) (by decide) h

/-- The digits in front of the point, the point, and one digit behind it. -/
theorem toList_pointText (t : ℕ) : (Number.pointText 1 t).toList =
    (toString (t / 10)).toList ++ ['.', (t % 10).digitChar] := by
  have hdigit : Nat.toDigits 10 (t % 10) = [(t % 10).digitChar] :=
    Nat.toDigits_of_lt_base (Nat.mod_lt t (by decide))
  have hpad : (Number.padZeros 1 (toString (t % 10))).toList = [(t % 10).digitChar] := by
    unfold Number.padZeros
    have hlength : (toString (t % 10)).length = 1 := by
      rw [← String.length_toList, toList_toString, hdigit]
      rfl
    rw [String.toList_append, toList_toString, hdigit, hlength]
    rfl
  have hunit : Nat.pow 10 1 = 10 := rfl
  unfold Number.pointText
  rw [if_neg one_ne_zero, hunit]
  dsimp only
  rw [String.toList_append, String.toList_append, hpad, List.append_assoc]
  rfl

/-- A number of tenths is known by its text with a point. -/
theorem pointText_injective {t u : ℕ} (h : Number.pointText 1 t = Number.pointText 1 u) :
    t = u := by
  have hlist := congrArg String.toList h
  rw [toList_pointText, toList_pointText] at hlist
  obtain ⟨hwhole, hlast⟩ := List.append_inj' hlist rfl
  have hdiv : t / 10 = u / 10 := toString_injective (String.toList_inj.1 hwhole)
  have hmod : t % 10 = u % 10 := by
    have hdigit : ∀ n, Nat.toDigits 10 (n % 10) = [(n % 10).digitChar] := fun n =>
      Nat.toDigits_of_lt_base (Nat.mod_lt n (by decide))
    apply toString_injective
    rw [← String.toList_inj, toList_toString, toList_toString, hdigit, hdigit,
      (List.cons.inj (List.cons.inj hlast).2).1]
  omega

theorem point_mem_pointText (t : ℕ) : '.' ∈ (Number.pointText 1 t).toList := by
  rw [toList_pointText]
  exact List.mem_append_right _ List.mem_cons_self

theorem isDigit_of_mem_padZeros {width n : ℕ} {c : Char}
    (h : c ∈ (Number.padZeros width (toString n)).toList) : c.isDigit = true := by
  unfold Number.padZeros at h
  rw [String.toList_append, String.toList_ofList] at h
  rcases List.mem_append.1 h with hzero | hdigit
  · rw [List.eq_of_mem_replicate hzero]
    rfl
  · exact isDigit_of_mem hdigit

theorem mem_pointText {places t : ℕ} {c : Char} (h : c ∈ (Number.pointText places t).toList) :
    c.isDigit = true ∨ c = '.' := by
  unfold Number.pointText at h
  split_ifs at h
  · exact .inl (isDigit_of_mem h)
  · rw [String.toList_append, String.toList_append] at h
    rcases List.mem_append.1 h with hfront | hdigits
    · rcases List.mem_append.1 hfront with hwhole | hpoint
      · exact .inl (isDigit_of_mem hwhole)
      · exact .inr (List.mem_singleton.1 hpoint)
    · exact .inl (isDigit_of_mem_padZeros hdigits)

theorem mem_tenthsText {t : ℕ} {c : Char} (h : c ∈ (tenthsText t).toList) :
    c.isDigit = true ∨ c = '.' := by
  unfold tenthsText at h
  split_ifs at h
  · exact .inl (isDigit_of_mem h)
  · exact mem_pointText h

theorem point_mem_tenthsText (t : ℕ) : '.' ∈ (tenthsText t).toList ↔ t % 10 ≠ 0 := by
  unfold tenthsText
  split_ifs with hwhole
  · constructor
    · exact fun h => absurd (isDigit_of_mem h) (by decide)
    · exact fun h => absurd hwhole h
  · exact iff_of_true (point_mem_pointText t) hwhole

/-- Texts with other characters are no texts of tenths. -/
theorem ne_tenthsText {text : String} {c : Char} (h : c ∈ text.toList)
    (hc : c.isDigit = false ∧ c ≠ '.') (t : ℕ) : text ≠ tenthsText t := by
  rintro rfl
  rcases mem_tenthsText h with hdigit | hpoint
  · rw [hc.1] at hdigit
    cases hdigit
  · exact hc.2 hpoint

/-- An integer whose text is one of tenths is a whole number of units. -/
theorem eq_of_toString_eq {i : ℤ} {t : ℕ} (h : toString i = tenthsText t) : 10 * i = t := by
  cases i with
  | ofNat n =>
    have hnat : toString n = tenthsText t := h
    have hwhole : t % 10 = 0 := by
      by_contra hne
      have hpoint := (point_mem_tenthsText t).2 hne
      rw [← hnat] at hpoint
      exact absurd (isDigit_of_mem hpoint) (by decide)
    unfold tenthsText at hnat
    rw [if_pos hwhole] at hnat
    have hn := toString_injective hnat
    show 10 * (n : ℤ) = t
    omega
  | negSucc n =>
    have hminus : '-' ∈ (toString (Int.negSucc n)).toList := by
      show '-' ∈ ("-" ++ toString (n + 1)).toList
      rw [String.toList_append]
      exact List.mem_append_left _ (List.mem_singleton_self _)
    exact absurd h (ne_tenthsText hminus (by decide) t)

/-! ## Tenths of a datum -/

/-- The text of a code number that has been rounded. -/
def datumText (d : Datum) : String :=
  if d.isWhole then toString (d.truncate Number.leastInt64 Number.greatestInt64)
  else Number.fixedText 1 d

theorem toReal_magnitude (m : ℕ) (e : ℤ) : ((Ratio.ofNat m).scale 2 e).toReal = m * 2 ^ e := by
  rw [Ratio.toReal_scale two_pos, Ratio.toReal_ofNat, Nat.cast_ofNat]

theorem den_magnitude_pos (m : ℕ) (e : ℤ) : 0 < ((Ratio.ofNat m).scale 2 e).den :=
  Ratio.den_scale_pos two_pos one_pos e

/-- A whole number with a text of tenths is exactly so many tenths. -/
theorem near_of_wholeText {negative : Bool} {m t : ℕ} {e : ℤ} (ht : t < 1000)
    (hwhole : (Datum.finite negative m e).isWhole = true)
    (h : toString ((Datum.finite negative m e).truncate Number.leastInt64 Number.greatestInt64) =
      tenthsText t) :
    (negative = true → t = 0) ∧ |10 * ((m : ℝ) * 2 ^ e) - t| ≤ 1 / 2 := by
  have hexact : m * 2 ^ e = (((Ratio.ofNat m).scale 2 e).floor : ℝ) := by
    rw [← toReal_magnitude]
    exact Ratio.toReal_of_isWhole (den_magnitude_pos m e) hwhole
  have hint := eq_of_toString_eq h
  unfold Datum.truncate Number.leastInt64 Number.greatestInt64 at hint
  dsimp only at hint
  rw [hexact]
  generalize ((Ratio.ofNat m).scale 2 e).floor = whole at hint
  cases negative with
  | false =>
    rw [if_neg Bool.false_ne_true] at hint
    have hnat : 10 * whole = t := by omega
    refine ⟨nofun, ?_⟩
    rw [← hnat]
    push_cast
    norm_num
  | true =>
    rw [if_pos rfl] at hint
    obtain ⟨rfl, rfl⟩ : whole = 0 ∧ t = 0 := by omega
    exact ⟨fun _ => rfl, by norm_num⟩

/-- The text with one decimal is a sign and a count of tenths that the number is near to. -/
theorem exists_fixedText (negative : Bool) (m : ℕ) (e : ℤ) :
    ∃ t : ℕ, Number.fixedText 1 (.finite negative m e) =
        (if negative then "-" else "") ++ Number.pointText 1 t ∧
      |10 * ((m : ℝ) * 2 ^ e) - t| ≤ 1 / 2 := by
  have hden : 0 < (((Ratio.ofNat m).scale 2 e).scale 10 1).den :=
    Ratio.den_scale_pos (by decide) (den_magnitude_pos m e) 1
  have herror := Ratio.abs_roundHalfEven_sub_le hden
  rw [Ratio.toReal_scale (by decide), toReal_magnitude, zpow_one, Nat.cast_ofNat, mul_comm,
    abs_sub_comm] at herror
  exact ⟨_, rfl, herror⟩

/-- A number whose text with one decimal is one of tenths is not negative, and near to so many. -/
theorem near_of_fixedText {negative : Bool} {m t : ℕ} {e : ℤ}
    (h : Number.fixedText 1 (.finite negative m e) = tenthsText t) :
    negative = false ∧ |10 * ((m : ℝ) * 2 ^ e) - t| ≤ 1 / 2 := by
  obtain ⟨digits, htext, herror⟩ := exists_fixedText negative m e
  rw [htext] at h
  cases negative with
  | true =>
    rw [if_pos rfl] at h
    have hminus : '-' ∈ ("-" ++ Number.pointText 1 digits).toList := by
      rw [String.toList_append]
      exact List.mem_append_left _ (List.mem_singleton_self _)
    exact absurd h (ne_tenthsText hminus (by decide) t)
  | false =>
    rw [if_neg Bool.false_ne_true, String.empty_append] at h
    have hpoint := point_mem_pointText digits
    rw [h, point_mem_tenthsText] at hpoint
    unfold tenthsText at h
    rw [if_neg hpoint] at h
    obtain rfl := pointText_injective h
    exact ⟨rfl, herror⟩

/-- What a text of tenths was made of: a number near to so many tenths, negative only if it is
zero. -/
theorem near_of_datumText {d : Datum} {t : ℕ} (ht : t < 1000) (h : datumText d = tenthsText t) :
    ∃ negative m e, d = .finite negative m e ∧ (negative = true → t = 0) ∧
      |10 * ((m : ℝ) * 2 ^ e) - t| ≤ 1 / 2 := by
  cases d with
  | nan => exact absurd h (ne_tenthsText (c := 'N') (by decide) (by decide) t)
  | infinite negative =>
    have hletter : 'i' ∈ (datumText (.infinite negative)).toList := by
      cases negative <;> decide
    exact absurd h (ne_tenthsText hletter (by decide) t)
  | finite negative m e =>
    refine ⟨negative, m, e, rfl, ?_⟩
    unfold datumText at h
    split_ifs at h with hwhole
    · exact near_of_wholeText ht hwhole h
    · obtain ⟨rfl, hnear⟩ := near_of_fixedText h
      exact ⟨nofun, hnear⟩

/-! ## Tenths of a number -/

theorem Number.Datum.exists_of_isFinite {d : Datum} (h : d.isFinite = true) :
    ∃ negative m e, d = .finite negative m e := by
  cases d with
  | nan => cases h
  | infinite negative => cases h
  | finite negative m e => exact ⟨negative, m, e, rfl⟩

/-- A number in tenths, rounded to a whole number of them, a half going away from zero; `none` for
what is not finite. -/
def Number.tenths? (x : Float) : Option ℤ :=
  match doubleDatum (x * 10.0) with
  | .finite negative mantissa exponent =>
    let n : ℤ := ((Ratio.ofNat mantissa).scale 2 exponent).roundHalfUp
    some (if negative then -n else n)
  | _ => none

theorem Number.tenths?_of_finite {x : Float} {negative : Bool} {m : ℕ} {e : ℤ}
    (h : doubleDatum (x * 10.0) = .finite negative m e) :
    tenths? x = some (if negative then -(((Ratio.ofNat m).scale 2 e).roundHalfUp : ℤ)
      else ((Ratio.ofNat m).scale 2 e).roundHalfUp) := by
  unfold tenths?
  rw [h]

theorem Number.exists_of_tenths? {x : Float} {t : ℤ} (h : tenths? x = some t) :
    ∃ negative m e, doubleDatum (x * 10.0) = .finite negative m e := by
  unfold tenths? at h
  split at h
  · exact ⟨_, _, _, ‹_›⟩
  · cases h

theorem codeText_of_finite {x : Float} {negative : Bool} {m : ℕ} {e : ℤ}
    (h : doubleDatum (x * 10.0) = .finite negative m e) :
    codeText x = datumText (doubleDatum (Number.doubleOfRatio negative
      (.ofNat ((Ratio.ofNat m).scale 2 e).roundHalfUp) / 10.0)) := by
  have hround : Number.roundHalfAway (x * 10.0) = Number.doubleOfRatio negative
      (.ofNat ((Ratio.ofNat m).scale 2 e).roundHalfUp) := by
    unfold Number.roundHalfAway
    rw [h]
  rw [← hround]
  rfl

theorem codeText_of_not_finite {x : Float} (h : (doubleDatum (x * 10.0)).isFinite = false) :
    codeText x = datumText (doubleDatum (x * 10.0 / 10.0)) := by
  have hround : Number.roundHalfAway (x * 10.0) = x * 10.0 := by
    unfold Number.roundHalfAway
    cases hdatum : doubleDatum (x * 10.0) with
    | nan => rfl
    | infinite negative => rfl
    | finite negative m e =>
      rw [hdatum] at h
      cases h
  unfold datumText
  conv_rhs => rw [← hround]
  rfl

/-- What is within a half of less than a thousand, and near to a tenth, is a tenth of as much. -/
theorem abs_sub_lt_of_near {t : ℕ} (ht : t < 1000) {x y : ℝ} (hy : 0 ≤ y)
    (hnear : |x - y / 10| ≤ max (y / 10 / 2 ^ 52) (2 ^ (-1074 : ℤ)))
    (hhalf : |10 * x - t| ≤ 1 / 2) : |y - t| < 1 := by
  have hbound : (t : ℝ) ≤ 999 := by exact_mod_cast (by omega : t ≤ 999)
  have hsmall : max (y / 10 / 2 ^ 52) (2 ^ (-1074 : ℤ)) ≤ y / 1000000 + 1 / 1000 := by
    apply max_le
    · have hpart : y / 10 / 2 ^ 52 ≤ y / 1000000 := by
        rw [div_div]
        exact div_le_div_of_nonneg_left hy (by norm_num) (by norm_num)
      linarith
    · have hpower : (2 : ℝ) ^ (-1074 : ℤ) ≤ 2 ^ (-10 : ℤ) :=
        zpow_le_zpow_right₀ one_le_two (by decide)
      have hten : (2 : ℝ) ^ (-10 : ℤ) ≤ 1 / 1000 := by norm_num
      have hpart : 0 ≤ y / 1000000 := by positivity
      exact (hpower.trans hten).trans (le_add_of_nonneg_left hpart)
  rw [abs_le] at hnear hhalf
  rw [abs_lt]
  constructor <;> linarith

/-- A tenth of a zero is that zero. -/
theorem datum_zero_div_ten (negative : Bool) :
    doubleDatum (Number.doubleOfRatio negative (.ofNat 0) / 10.0) = .finite negative 0 (-1074) := by
  cases negative <;> decide +kernel

theorem lt_of_abs_sub_lt {t : ℕ} (ht : t < 1000) {y : ℝ} (h : |y - t| < 1) : y < 2 ^ 53 := by
  have hbound : (t : ℝ) ≤ 999 := by exact_mod_cast (by omega : t ≤ 999)
  rw [abs_lt] at h
  calc y < 1000 := by linarith
    _ ≤ 2 ^ 53 := by norm_num

/-- A tenth of a whole number, when near to less than a thousand tenths, is that many tenths, and of
the sign of the number. -/
theorem eq_of_tenth {t n m : ℕ} (ht : t < 1000) {negative negative' : Bool} {e : ℤ}
    (hdatum : doubleDatum (Number.doubleOfRatio negative (.ofNat n) / 10.0) =
      .finite negative' m e)
    (hhalf : |10 * ((m : ℝ) * 2 ^ e) - t| ≤ 1 / 2) : n = t ∧ negative' = negative := by
  rcases n.eq_zero_or_pos with rfl | hn
  · rw [datum_zero_div_ten] at hdatum
    cases hdatum
    refine ⟨Ratio.eq_of_abs_sub_lt ?_, rfl⟩
    rw [Nat.cast_zero, zero_mul, mul_zero] at hhalf
    rw [Nat.cast_zero]
    exact hhalf.trans_lt (by norm_num)
  · rcases Double.doubleDatum_doubleOfRatio negative hn with
      hinfinite | ⟨m', e', hwhole, hfull, he, hexact, hbig⟩
    · have hpart := Double.isFinite_of_div_ten (x := Number.doubleOfRatio negative (.ofNat n))
        (by rw [hdatum]; rfl)
      rw [hinfinite] at hpart
      cases hpart
    · have hnear := Double.isNear_div_ten hwhole hfull (by omega)
      rw [hdatum] at hnear
      obtain ⟨hinfinite, -⟩ | ⟨m, e, heq, hnear⟩ := hnear
      · cases hinfinite
      cases heq
      have hlt := abs_sub_lt_of_near ht (by positivity) hnear hhalf
      have hsmall : n < 2 ^ 53 := not_le.1 fun hle =>
        (lt_of_abs_sub_lt ht hlt).not_ge (hbig hle)
      rw [hexact hsmall] at hlt
      exact ⟨Ratio.eq_of_abs_sub_lt hlt, rfl⟩

/-- A number whose text is one of tenths is that many tenths. -/
theorem Number.tenths?_of_codeText {x : Float} {t : ℕ} (ht : t < 1000)
    (h : codeText x = tenthsText t) : tenths? x = some (t : ℤ) := by
  cases hfinite : (doubleDatum (x * 10.0)).isFinite with
  | false =>
    rw [codeText_of_not_finite hfinite] at h
    obtain ⟨negative, m, e, hdatum, -, -⟩ := near_of_datumText ht h
    have hprod := Double.isFinite_of_div_ten (x := x * 10.0) (by rw [hdatum]; rfl)
    rw [hfinite] at hprod
    cases hprod
  | true =>
    obtain ⟨negative, m, e, hprod⟩ := Datum.exists_of_isFinite hfinite
    rw [codeText_of_finite hprod] at h
    rw [tenths?_of_finite hprod]
    obtain ⟨negative', m', e', hdatum, hsign, hhalf⟩ := near_of_datumText ht h
    obtain ⟨heq, rfl⟩ := eq_of_tenth ht hdatum hhalf
    rw [heq]
    cases negative' with
    | false => rfl
    | true =>
      rw [hsign rfl]
      rfl

/-- A number of so many tenths has their text, as far as a tenth of so many is written so. -/
theorem codeText_of_tenths? {x : Float} {t : ℕ} (h : Number.tenths? x = some (t : ℤ))
    (htext : datumText (doubleDatum (Number.doubleOfRatio false (.ofNat t) / 10.0)) =
      tenthsText t) : codeText x = tenthsText t := by
  obtain ⟨negative, m, e, hprod⟩ := Number.exists_of_tenths? h
  rw [Number.tenths?_of_finite hprod] at h
  rw [codeText_of_finite hprod]
  generalize ((Ratio.ofNat m).scale 2 e).roundHalfUp = n at h ⊢
  cases negative with
  | false =>
    rw [if_neg Bool.false_ne_true, Option.some_inj, Nat.cast_inj] at h
    rw [h, htext]
  | true =>
    -- of negative numbers only zero has so many tenths
    rw [if_pos rfl, Option.some_inj] at h
    obtain ⟨rfl, rfl⟩ : n = 0 ∧ t = 0 := by omega
    rw [datum_zero_div_ten]
    decide +kernel

/-! ## Rounding to tenths -/

theorem Number.Datum.toReal_finite (negative : Bool) (m : ℕ) (e : ℤ) :
    (Datum.finite negative m e).toReal = (if negative then -1 else 1) * (m * 2 ^ e) :=
  mul_assoc _ _ _

/-- Signs do not change how far apart two magnitudes are. -/
theorem abs_sign_mul_sub (negative : Bool) (x y : ℝ) :
    |(if negative then -1 else 1) * x - (if negative then -1 else 1) * y| = |x - y| := by
  cases negative with
  | false => rw [if_neg Bool.false_ne_true, one_mul, one_mul]
  | true => rw [if_pos rfl, ← mul_sub, neg_one_mul, abs_neg]

theorem ten_mul_toReal (negative : Bool) (m : ℕ) (e : ℤ) :
    10 * (Datum.finite negative m e).toReal =
      (if negative then -1 else 1) * (10 * ((m : ℝ) * 2 ^ e)) := by
  rw [Number.Datum.toReal_finite]
  exact mul_left_comm _ _ _

theorem abs_ten_mul_toReal (negative : Bool) (m : ℕ) (e : ℤ) :
    |10 * (Datum.finite negative m e).toReal| = 10 * ((m : ℝ) * 2 ^ e) := by
  have hpos : (0 : ℝ) ≤ 10 * (m * 2 ^ e) := by positivity
  have hsign := abs_sign_mul_sub negative (10 * (m * 2 ^ e)) 0
  rwa [mul_zero, sub_zero, sub_zero, abs_of_nonneg hpos, ← ten_mul_toReal] at hsign

/-- Ten times a number, rounded to a whole number: by a half at most, and the error of the
product. -/
theorem Number.near_of_tenths? {x : Float} {t : ℤ} (h : tenths? x = some t) :
    (doubleDatum x).isFinite = true ∧ |(t : ℝ) - 10 * (doubleDatum x).toReal| ≤
      1 / 2 + max (|10 * (doubleDatum x).toReal| / 2 ^ 52) (2 ^ (-1074 : ℤ)) := by
  obtain ⟨negative, m, e, hprod⟩ := exists_of_tenths? h
  have hfinite : (doubleDatum x).isFinite = true :=
    Double.isFinite_of_mul_ten (by rw [hprod]; rfl)
  obtain ⟨negative', m', e', hdatum⟩ := Datum.exists_of_isFinite hfinite
  refine ⟨hfinite, ?_⟩
  rw [tenths?_of_finite hprod] at h
  have hnear := Double.isNear_mul_ten hdatum
  rw [hprod] at hnear
  obtain ⟨hinfinite, -⟩ | ⟨m, e, heq, hnear⟩ := hnear
  · cases hinfinite
  cases heq
  -- two roundings: that of the product, and that to a whole number of tenths
  have hround := Ratio.abs_roundHalfUp_sub_le (den_magnitude_pos m e)
  rw [toReal_magnitude] at hround
  generalize ((Ratio.ofNat m).scale 2 e).roundHalfUp = n at h hround
  have ht : (t : ℝ) = (if negative then -1 else 1) * n := by
    cases negative with
    | false =>
      cases h
      simp
    | true =>
      cases h
      simp
  rw [hdatum, abs_ten_mul_toReal, ten_mul_toReal, ht, abs_sign_mul_sub]
  calc |(n : ℝ) - 10 * (m' * 2 ^ e')|
      ≤ |(n : ℝ) - m * 2 ^ e| + |(m : ℝ) * 2 ^ e - 10 * (m' * 2 ^ e')| := abs_sub_le _ _ _
    _ ≤ 1 / 2 + max (10 * ((m' : ℝ) * 2 ^ e') / 2 ^ 52) (2 ^ (-1074 : ℤ)) :=
      add_le_add hround hnear

/-- The error of a product with ten that is not huge. -/
theorem max_error_le {y : ℝ} (h : |y| ≤ 2000) :
    max (|y| / 2 ^ 52) (2 ^ (-1074 : ℤ)) ≤ 2 ^ (-40 : ℤ) := by
  apply max_le
  · calc |y| / 2 ^ 52 ≤ 2000 / 2 ^ 52 := by gcongr
      _ ≤ 2 ^ (-40 : ℤ) := by norm_num
  · exact zpow_le_zpow_right₀ one_le_two (by decide)

/-- What rounds to a number of tenths is at most half a tenth away from it, but for the error of a
product. -/
theorem Number.abs_sub_le_of_tenths? {x : Float} {t : ℤ} (h : tenths? x = some t)
    (ht : |(t : ℝ)| ≤ 1000) :
    |10 * (doubleDatum x).toReal - t| ≤ 1 / 2 + 2 ^ (-40 : ℤ) := by
  obtain ⟨-, hnear⟩ := near_of_tenths? h
  rw [abs_sub_comm] at hnear
  refine hnear.trans (add_le_add le_rfl (max_error_le ?_))
  -- were it greater, the error would not account for its distance from so few tenths
  by_contra! hlarge
  have hfar := (abs_sub_abs_le_abs_sub (10 * (doubleDatum x).toReal) t).trans hnear
  have herror : max (|10 * (doubleDatum x).toReal| / 2 ^ 52) (2 ^ (-1074 : ℤ)) ≤
      |10 * (doubleDatum x).toReal| / 4 := by
    apply max_le
    · gcongr
      norm_num
    · have hpower : (2 : ℝ) ^ (-1074 : ℤ) ≤ 1 := zpow_le_one_of_nonpos₀ one_le_two (by decide)
      linarith
  linarith

/-- What is closer than half a tenth to a number of tenths, by more than the error of a product,
rounds to it. -/
theorem Number.tenths?_of_abs_sub_lt {x : Float} {t : ℤ} (hfinite : (doubleDatum x).isFinite = true)
    (ht : |(t : ℝ)| ≤ 1000) (hnear : |10 * (doubleDatum x).toReal - t| < 1 / 2 - 2 ^ (-40 : ℤ)) :
    tenths? x = some t := by
  have hsmall : |10 * (doubleDatum x).toReal| ≤ 2000 := by
    have hfar := (abs_sub_abs_le_abs_sub (10 * (doubleDatum x).toReal) t).trans hnear.le
    have hpower : (0 : ℝ) < 2 ^ (-40 : ℤ) := by positivity
    linarith
  obtain ⟨u, hu⟩ : ∃ u, tenths? x = some u := by
    obtain ⟨negative, m, e, hdatum⟩ := Datum.exists_of_isFinite hfinite
    obtain ⟨-, hlarge⟩ | ⟨m', e', hprod, -⟩ := Double.isNear_mul_ten hdatum
    · rw [hdatum, abs_ten_mul_toReal] at hsmall
      exact absurd (hlarge.trans hsmall) (by norm_num)
    · exact ⟨_, tenths?_of_finite hprod⟩
  have hround := (near_of_tenths? hu).2.trans (add_le_add le_rfl (max_error_le hsmall))
  have hlt : |((u - t : ℤ) : ℝ)| < 1 := by
    rw [Int.cast_sub]
    calc |(u : ℝ) - t| ≤ |u - 10 * (doubleDatum x).toReal| + |10 * (doubleDatum x).toReal - t| :=
          abs_sub_le _ _ _
      _ < 1 / 2 + 2 ^ (-40 : ℤ) + (1 / 2 - 2 ^ (-40 : ℤ)) := add_lt_add_of_le_of_lt hround hnear
      _ = 1 := by ring
  have hzero : u - t = 0 := Int.abs_lt_one_iff.1 (by exact_mod_cast hlt)
  rw [hu, sub_eq_zero.1 hzero]

/-- Numbers that are equal to one another, as zeros of both signs are, have the same tenths. -/
theorem Number.tenths?_eq_of_beq {x y : Float} (h : (x == y) = true) : tenths? x = tenths? y := by
  have hcompare : ((Double.parts x).compare (Double.parts y) == some .eq) = true := h
  have hx : x * 10.0 = Double.ofParts ((Double.parts x).mul .binary64 (Double.parts 10.0)) := rfl
  have hy : y * 10.0 = Double.ofParts ((Double.parts y).mul .binary64 (Double.parts 10.0)) := rfl
  unfold tenths?
  rw [hx, hy]
  rcases Double.eq_or_zero_of_compare (beq_iff_eq.1 hcompare) with hparts | ⟨s, t, hzero, hzero'⟩
  · rw [hparts]
  · rw [hzero, hzero', Double.parts_ten, Double.zero_mul_finite, Double.zero_mul_finite]
    cases s <;> cases t <;> decide +kernel


end Toolpath
