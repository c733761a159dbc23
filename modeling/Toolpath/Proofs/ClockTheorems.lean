import Toolpath.Proofs.NumeralTheorems
import Toolpath.Proofs.QuotientTheorems
import Toolpath.Units

/-!
# Clocks

A time is shown as a clock with tenths of seconds. The clock is read back from its text
(`Clock.ofText_text`), and what it shows is known up to the greatest count of hours
(`Clock.durationText_shows`): minutes and seconds are within half a tenth of the time past the hour,
where the seconds are rounded on their own and show a full minute near its end, and below `2 ^ 17`
hours the clock as a whole is within half a tenth of the time. Above that the rounded quotient may
show one hour too many, or more.
-/

namespace Toolpath

namespace Single

/-- A number from zero on has the positive sign, unless it is the negative zero. -/
theorem hasSign_of_zero_le {x : Float32} (h : 0.0 ≤ x) (hne : x ≠ -0.0) :
    HasSign .positive (parts x) := by
  obtain ⟨hnumber, hbelow⟩ := (zero_le_iff x).1 h
  have hzero : parts x ≠ .zero .negative := fun hparts => by
    apply hne
    rw [← Number.singleOfDatum_singleDatum x, ← Number.singleOfDatum_singleDatum (-0.0),
      singleDatum_eq, hparts, singleDatum_eq]
    rfl
  generalize parts x = u at hnumber hbelow hzero
  rcases u with s | _ | s | ⟨s, m, e, hm⟩ <;> (try cases s) <;>
    first
      | rfl
      | exact absurd rfl hnumber
      | exact absurd rfl hzero
      | exact absurd trivial hbelow

/-- Numbers below a finite one that are not below zero are finite, and of less value. -/
theorem value_lt_of_lt {x y : Float32} (hx : HasSign .positive (parts x)) (hy : y.isFinite = true)
    (h : x < y) : x.isFinite = true ∧ value (parts x) < value (parts y) := by
  obtain ⟨-, -, hrank⟩ := (lt_iff x y).1 h
  have hfinite : x.isFinite = true :=
    isFinite_of_rank_le hx.ne hx.not_isBelow hrank.le hy
  exact ⟨hfinite, value_lt hfinite hy hrank⟩

/-- What is not below zero is not raised to it. -/
theorem greatest_zero {x : Float32} (h : HasSign .positive (parts x)) :
    Scalar.greatest x 0.0 = x := by
  have hnot : ¬ x < 0.0 := fun hlt => h.not_isBelow ((lt_zero_iff x).1 hlt)
  have hself : x ≤ x := isNumber_iff.2 h.ne
  unfold Scalar.greatest
  rw [if_neg hnot, if_pos hself]

end Single

/-- Hours, minutes and tenths of seconds. -/
structure Clock where
  hours : ℕ
  minutes : ℕ
  tenths : ℕ
  deriving DecidableEq

namespace Clock

open Number (digitsValue padZeros pointText)

/-! ## Texts -/

/-- The text of a clock; hours are left out when there are none. -/
def text (c : Clock) : String :=
  if 0 < c.hours then
    toString c.hours ++ ":" ++ padZeros 2 (toString c.minutes) ++ ":" ++
      padZeros 4 (pointText 1 c.tenths)
  else toString c.minutes ++ ":" ++ padZeros 4 (pointText 1 c.tenths)

/-- Read a count. -/
def count? (digits : List Char) : Option ℕ :=
  if digits ≠ [] ∧ digits.all Char.isDigit then some (digitsValue digits) else none

/-- Read two digits. -/
def pair? (digits : List Char) : Option ℕ := if digits.length = 2 then count? digits else none

/-- Read seconds with two digits and one decimal, as tenths. -/
def tenths? : List Char → Option ℕ
  | [ten, one, '.', tenth] => count? [ten, one, tenth]
  | _ => none

/-- Read a clock; minutes have two digits behind hours. -/
def ofText? (text : String) : Option Clock :=
  match text.toList.splitOn ':' with
  | [minutes, seconds] => do return ⟨0, ← count? minutes, ← tenths? seconds⟩
  | [hours, minutes, seconds] => do return ⟨← count? hours, ← pair? minutes, ← tenths? seconds⟩
  | _ => none

theorem count_eq {digits : List Char} (hne : digits ≠ []) (h : ∀ c ∈ digits, c.isDigit = true) :
    count? digits = some (digitsValue digits) :=
  if_pos ⟨hne, List.all_eq_true.2 h⟩

theorem count_toString (n : ℕ) : count? (toString n).toList = some n := by
  rw [toList_toString, count_eq Nat.toDigits_ne_nil fun c => Number.isDigit_of_mem_toDigits,
    Number.digitsValue_toDigits]

theorem pair_padZeros {n : ℕ} (h : n < 100) : pair? (padZeros 2 (toString n)).toList = some n := by
  have hlength := Number.length_padZeros two_pos h
  unfold pair?
  rw [if_pos hlength, count_eq (List.ne_nil_of_length_pos (by omega))
    fun c => isDigit_of_mem_padZeros, Number.digitsValue_padZeros]

/-- Two digits, the point and the digit behind it. -/
theorem toList_seconds (t : ℕ) : (padZeros 4 (pointText 1 t)).toList =
    (padZeros 2 (toString (t / 10))).toList ++ ['.', (t % 10).digitChar] := by
  have hlength : (pointText 1 t).length = (toString (t / 10)).length + 2 := by
    rw [← String.length_toList, toList_pointText, List.length_append, String.length_toList]
    rfl
  unfold padZeros
  rw [String.toList_append, toList_pointText, hlength, String.toList_append,
    Nat.add_sub_add_right 2 2, List.append_assoc]

theorem tenths_text {t : ℕ} (h : t < 1000) :
    tenths? (padZeros 4 (pointText 1 t)).toList = some t := by
  have hlength := Number.length_padZeros two_pos (show t / 10 < 10 ^ 2 by omega)
  have hdigits : ∀ c ∈ (padZeros 2 (toString (t / 10))).toList, c.isDigit = true := fun c =>
    isDigit_of_mem_padZeros
  have hvalue := Number.digitsValue_padZeros 2 (t / 10)
  have hlast : [(t % 10).digitChar] = Nat.toDigits 10 (t % 10) :=
    (Nat.toDigits_of_lt_base (Nat.mod_lt t (by decide))).symm
  rw [toList_seconds]
  obtain ⟨ten, one, htwo⟩ := List.length_eq_two.1 hlength
  rw [htwo] at hdigits hvalue ⊢
  have hthree : [ten, one, (t % 10).digitChar] = [ten, one] ++ Nat.toDigits 10 (t % 10) := by
    rw [← hlast]
    rfl
  show count? [ten, one, (t % 10).digitChar] = some t
  rw [hthree, count_eq (List.append_ne_nil_of_left_ne_nil (List.cons_ne_nil _ _) _) fun c hc =>
    (List.mem_append.1 hc).elim (hdigits c) Number.isDigit_of_mem_toDigits,
    Number.digitsValue_append, hvalue, Number.digitsValue_toDigits, ← hlast]
  show some (10 * (t / 10) + t % 10) = some t
  rw [Nat.div_add_mod]

theorem colon_notMem_toString (n : ℕ) : ':' ∉ (toString n).toList := fun h =>
  absurd (isDigit_of_mem h) (by decide)

theorem colon_notMem_padZeros (width n : ℕ) : ':' ∉ (padZeros width (toString n)).toList := fun h =>
  absurd (isDigit_of_mem_padZeros h) (by decide)

theorem colon_notMem_seconds (t : ℕ) : ':' ∉ (padZeros 4 (pointText 1 t)).toList := by
  intro h
  rw [toList_seconds] at h
  rcases List.mem_append.1 h with hwhole | hrest
  · exact colon_notMem_padZeros 2 _ hwhole
  · have hpoint : ':' ∈ (pointText 1 t).toList := by
      rw [toList_pointText]
      exact List.mem_append_right _ hrest
    exact (mem_pointText hpoint).elim (absurd · (by decide)) (absurd · (by decide))

/-- Colons stand between the fields only. -/
theorem splitOn_text (c : Clock) : c.text.toList.splitOn ':' =
    if 0 < c.hours then [(toString c.hours).toList, (padZeros 2 (toString c.minutes)).toList,
      (padZeros 4 (pointText 1 c.tenths)).toList]
    else [(toString c.minutes).toList, (padZeros 4 (pointText 1 c.tenths)).toList] := by
  have hseconds := colon_notMem_seconds c.tenths
  unfold text
  split_ifs
  · have hfields : (toString c.hours ++ ":" ++ padZeros 2 (toString c.minutes) ++ ":" ++
        padZeros 4 (pointText 1 c.tenths)).toList =
          [':'].intercalate [(toString c.hours).toList, (padZeros 2 (toString c.minutes)).toList,
            (padZeros 4 (pointText 1 c.tenths)).toList] := by
      simp [String.toList_append]
    rw [hfields, List.splitOn_intercalate _ _ (List.cons_ne_nil _ _)]
    simp only [List.forall_mem_cons]
    exact ⟨colon_notMem_toString _, colon_notMem_padZeros 2 _, hseconds, nofun⟩
  · have hfields : (toString c.minutes ++ ":" ++ padZeros 4 (pointText 1 c.tenths)).toList =
        [':'].intercalate [(toString c.minutes).toList,
          (padZeros 4 (pointText 1 c.tenths)).toList] := by
      simp [String.toList_append]
    rw [hfields, List.splitOn_intercalate _ _ (List.cons_ne_nil _ _)]
    simp only [List.forall_mem_cons]
    exact ⟨colon_notMem_toString _, hseconds, nofun⟩

/-- A clock is read back from its text. -/
theorem ofText_text {c : Clock} (hminutes : c.minutes < 100) (htenths : c.tenths < 1000) :
    ofText? c.text = some c := by
  unfold ofText?
  rw [splitOn_text]
  split_ifs with hhours
  · dsimp only
    rw [count_toString, pair_padZeros hminutes, tenths_text htenths]
    rfl
  · have hnone : c.hours = 0 := Nat.eq_zero_of_not_pos hhours
    dsimp only
    rw [count_toString, tenths_text htenths, ← hnone]
    rfl

/-! ## Times -/

open Single (parts value HasSign)

/-- The time that a clock shows, in seconds. -/
noncomputable def time (c : Clock) : ℝ :=
  Number.Ratio.toReal ⟨36000 * c.hours + 600 * c.minutes + c.tenths, 10⟩

theorem time_eq (c : Clock) : c.time = 3600 * c.hours + 60 * c.minutes + c.tenths / 10 := by
  unfold time Number.Ratio.toReal
  push_cast
  ring

/-- What a clock shows of a time in seconds. -/
structure Shows (c : Clock) (t : ℝ) : Prop where
  minutes_lt : c.minutes < 60
  tenths_le : c.tenths ≤ 600
  /-- The seconds show a full minute at its end only. -/
  le_of_full : c.tenths = 600 → 59.95 ≤ 60 * Int.fract (t / 60)
  full_of_lt : 59.95 < 60 * Int.fract (t / 60) → c.tenths = 600
  /-- Minutes and seconds show the time past the hour. -/
  abs_rest_le : |60 * c.minutes + c.tenths / 10 - 3600 * Int.fract (t / 3600)| ≤ 1 / 20
  abs_hours_le : |(c.hours : ℝ) - ⌊t / 3600⌋₊| ≤ 1 + t / 3600 / 2 ^ 24
  abs_time_le : t < 2 ^ 17 * 3600 → |c.time - t| ≤ 1 / 20

/-- A time past the hour is a whole number of minutes and a rest. -/
theorem hour_rest_eq (t : ℝ) : 3600 * Int.fract (t / 3600) =
    60 * ⌊3600 * Int.fract (t / 3600) / 60⌋₊ + 60 * Int.fract (t / 60) := by
  have hminutes : 3600 * Int.fract (t / 3600) / 60 = t / 60 - (60 * ⌊t / 3600⌋ : ℤ) := by
    rw [Int.fract]
    push_cast
    ring
  have hfract : Int.fract (3600 * Int.fract (t / 3600) / 60) = Int.fract (t / 60) := by
    rw [hminutes, Int.fract_sub_intCast]
  have hnonneg : 0 ≤ 3600 * Int.fract (t / 3600) / 60 := by
    have := Int.fract_nonneg (t / 3600)
    positivity
  have hsplit := Int.floor_add_fract (3600 * Int.fract (t / 3600) / 60)
  rw [hfract, ← natCast_floor_eq_intCast_floor hnonneg] at hsplit
  linarith

/-- Whole hours and minutes, and seconds that are rounded on their own, show a time. -/
theorem shows_of_fields {t : ℝ} (ht : 0 ≤ t) {hours minutes tenths : ℕ}
    (hhours : |(hours : ℝ) - ⌊t / 3600⌋₊| ≤ 1 + t / 3600 / 2 ^ 24)
    (hwhole : t < 2 ^ 17 * 3600 → hours = ⌊t / 3600⌋₊)
    (hminutes : minutes = ⌊3600 * Int.fract (t / 3600) / 60⌋₊)
    (htenths : |tenths / 10 - 60 * Int.fract (t / 60)| ≤ 1 / 20) :
    Shows ⟨hours, minutes, tenths⟩ t := by
  have hrest := hour_rest_eq t
  rw [← hminutes] at hrest
  have hbelowHour := Int.fract_lt_one (t / 3600)
  have hbelowMinute := Int.fract_lt_one (t / 60)
  obtain ⟨hlow, hhigh⟩ := abs_le.1 htenths
  have hbelow : (tenths : ℝ) < (601 : ℕ) := by
    push_cast
    linarith
  have hle : tenths ≤ 600 := Nat.lt_succ_iff.1 (by exact_mod_cast hbelow)
  refine ⟨?minutes, hle, fun hfull => ?full, fun hlate => ?late, ?rest, hhours, fun hsmall => ?time⟩
  case minutes =>
    have hnonneg : (0 : ℝ) ≤ 60 * Int.fract (t / 60) := by
      have := Int.fract_nonneg (t / 60)
      positivity
    have hcast : (minutes : ℝ) < (60 : ℕ) := by
      push_cast
      linarith
    exact_mod_cast hcast
  case full =>
    rw [show tenths = 600 from hfull, Nat.cast_ofNat] at hhigh
    linarith
  case late =>
    have hgt : ((599 : ℕ) : ℝ) < tenths := by
      push_cast
      linarith
    exact le_antisymm hle (by exact_mod_cast hgt)
  case rest =>
    rw [hrest, abs_le]
    constructor <;> linarith
  case time =>
    -- the hours are the whole part of the quotient, so nothing is shown twice
    have hnonneg : 0 ≤ t / 3600 := div_nonneg ht (by norm_num)
    have hsplit := Int.floor_add_fract (t / 3600)
    rw [← natCast_floor_eq_intCast_floor hnonneg, ← hwhole hsmall] at hsplit
    rw [time_eq, abs_le]
    dsimp only
    constructor <;> linarith

/-! ## Fields of a time -/

/-- There is no sign to put zeros behind. -/
theorem padNumber_of_notMem {text : String} (h : '-' ∉ text.toList) (width : ℕ) :
    padNumber width text = padZeros width text := by
  unfold padNumber
  split
  · rename_i digits hminus
    exact absurd (hminus ▸ List.mem_cons_self) h
  · rfl

/-- Whole seconds in an hour, as a number and as a count. -/
theorem hour_eq : (3600.0 : Float32).isFinite = true ∧ value (parts 3600.0) = (3600 : ℕ) := by
  obtain ⟨hfinite, -, hvalue⟩ := Single.of_singleDatum
    (x := 3600.0) (m := 14745600) (e := -12) (by decide +kernel)
  refine ⟨hfinite, hvalue.trans ?_⟩
  norm_num

theorem minute_eq : (60.0 : Float32).isFinite = true ∧ value (parts 60.0) = (60 : ℕ) := by
  obtain ⟨hfinite, -, hvalue⟩ := Single.of_singleDatum
    (x := 60.0) (m := 15728640) (e := -18) (by decide +kernel)
  refine ⟨hfinite, hvalue.trans ?_⟩
  norm_num

theorem bound_eq : (15461882265600.0 : Float32).isFinite = true ∧
    value (parts 15461882265600.0) = 2 ^ 32 * 3600 := by
  obtain ⟨hfinite, -, hvalue⟩ := Single.of_singleDatum
    (x := 15461882265600.0) (m := 14745600) (e := 20) (by decide +kernel)
  refine ⟨hfinite, hvalue.trans ?_⟩
  norm_num

section Fields

variable {x : Float32} (hx : x.isFinite = true) (hsign : HasSign .positive (parts x))
include hx hsign

/-- Some counts of hours are one too many, or more. -/
theorem abs_countOfSingle_hours_sub_le (hbound : value (parts x) < 2 ^ 32 * 3600) :
    |(Number.countOfSingle (x / 3600.0) : ℝ) - ⌊value (parts x) / 3600⌋₊| ≤
      1 + value (parts x) / 3600 / 2 ^ 24 := by
  have herror := Single.abs_countOfSingle_div_sub_le hx hsign hour_eq.1 hour_eq.2 (by decide)
    (by push_cast; linarith)
  rwa [Nat.cast_ofNat] at herror

/-- Hours that are not too many are counted exactly. -/
theorem countOfSingle_hours (hsmall : value (parts x) < 2 ^ 17 * 3600) :
    Number.countOfSingle (x / 3600.0) = ⌊value (parts x) / 3600⌋₊ := by
  have hexact := Single.countOfSingle_div (k := 11) (j := 4) hx hsign hour_eq.1 hour_eq.2
    (by decide) (by decide) (by decide) (by decide) (by
      rw [div_lt_iff₀ (by norm_num)]
      norm_num
      linarith)
  rwa [Nat.cast_ofNat] at hexact

/-- The minutes past the hour are counted exactly. -/
theorem countOfSingle_minutes : Number.countOfSingle (Number.remainder x 3600 / 60.0) =
    ⌊3600 * Int.fract (value (parts x) / 3600) / 60⌋₊ := by
  obtain ⟨hfinite, hpositive, hrest⟩ :=
    Single.value_remainder (c := 3600) hx hsign (by decide) (by decide)
  rw [Nat.cast_ofNat] at hrest
  have hbelow := Int.fract_lt_one (value (parts x) / 3600)
  have hexact := Single.countOfSingle_div (k := 5) (j := 2) hfinite hpositive minute_eq.1
    minute_eq.2 (by decide) (by decide) (by decide) (by decide) (by rw [hrest]; norm_num; linarith)
  rwa [hrest, Nat.cast_ofNat] at hexact

/-- The tenths that the seconds past the minute are shown with. -/
theorem exists_seconds : ∃ t : ℕ,
    padNumber 4 (Number.fixedText 1 (Number.singleDatum (Number.remainder x 60))) =
        padZeros 4 (pointText 1 t) ∧
      |t / 10 - 60 * Int.fract (value (parts x) / 60)| ≤ 1 / 20 := by
  obtain ⟨hfinite, hpositive, hrest⟩ :=
    Single.value_remainder (c := 60) hx hsign (by decide) (by decide)
  obtain ⟨m, e, hdatum, -, -, hvalue⟩ := Single.exists_singleDatum hfinite hpositive
  obtain ⟨t, htext, herror⟩ := exists_fixedText false m e
  rw [← hvalue, hrest, Nat.cast_ofNat] at herror
  rw [hdatum, htext, if_neg Bool.false_ne_true, String.empty_append]
  obtain ⟨hlow, hhigh⟩ := abs_le.1 herror
  refine ⟨t, ?_, ?_⟩
  · refine padNumber_of_notMem (fun h => ?_) 4
    rcases mem_pointText h with hdigit | hpoint
    · exact absurd hdigit (by decide)
    · exact absurd hpoint (by decide)
  · rw [abs_le]
    constructor <;> linarith

end Fields

/-- The clock that a time is shown with has the fields that are taken from the time. -/
theorem durationText_eq {x : Float32} (hsign : HasSign .positive (parts x)) {t : ℕ}
    (ht : padNumber 4 (Number.fixedText 1 (Number.singleDatum (Number.remainder x 60))) =
      padZeros 4 (pointText 1 t)) :
    durationText x = text ⟨Number.countOfSingle (x / 3600.0),
      Number.countOfSingle (Number.remainder x 3600 / 60.0), t⟩ := by
  unfold durationText
  rw [Single.greatest_zero hsign]
  dsimp only
  generalize padNumber 4 _ = seconds at ht ⊢
  rw [ht]
  rfl

/-- The clock of a time from zero up to the greatest count of hours. -/
theorem durationText_shows {x : Float32} (hx : 0.0 ≤ x) (hne : x ≠ -0.0)
    (hlt : x < 15461882265600.0) :
    ∃ c : Clock, ofText? (durationText x) = some c ∧ c.Shows (Number.singleDatum x).toReal := by
  have hsign := Single.hasSign_of_zero_le hx hne
  obtain ⟨hfinite, hbound⟩ := Single.value_lt_of_lt hsign bound_eq.1 hlt
  rw [bound_eq.2] at hbound
  obtain ⟨t, htext, hnear⟩ := exists_seconds hfinite hsign
  have hshows := shows_of_fields hsign.value_nonneg
    (abs_countOfSingle_hours_sub_le hfinite hsign hbound) (countOfSingle_hours hfinite hsign)
    (countOfSingle_minutes hfinite hsign) hnear
  rw [Single.toReal_singleDatum]
  refine ⟨_, ?_, hshows⟩
  rw [durationText_eq hsign htext]
  exact ofText_text (hshows.minutes_lt.trans (by decide)) (hshows.tenths_le.trans_lt (by decide))

/-- An hour, two minutes and five seconds. -/
theorem durationText_shows_hour : (0.0 : Float32) ≤ 3725.0 ∧ (3725.0 : Float32) ≠ -0.0 ∧
    (3725.0 : Float32) < 15461882265600.0 ∧ durationText 3725.0 = "1:02:05.0" ∧
      ∃ c : Clock, ofText? (durationText 3725.0) = some c ∧
        c.Shows (Number.singleDatum 3725.0).toReal :=
  ⟨by decide +kernel, by decide +kernel, by decide +kernel, by decide +kernel,
    durationText_shows (by decide +kernel) (by decide +kernel) (by decide +kernel)⟩

/-- Just below a minute the seconds are rounded up to it, and after many hours their count is. -/
theorem durationText_fullMinute :
    ((0.0 : Float32) ≤ 59.97 ∧ (59.97 : Float32) < 15461882265600.0 ∧
      durationText 59.97 = "0:60.0" ∧
        ∀ c, ofText? (durationText 59.97) = some c → ¬ c.tenths < 600) ∧
    (0.0 : Float32) ≤ 471862784.0 ∧ (471862784.0 : Float32) < 15461882265600.0 ∧
      durationText 471862784.0 = "131073:59:44.0" ∧
        ∀ c, ofText? (durationText 471862784.0) = some c →
          c.time = (Number.singleDatum 471862784.0).toReal + 3600 := by
  have hminute : ofText? (durationText 59.97) = some ⟨0, 0, 600⟩ := by decide +kernel
  have hhours : ofText? (durationText 471862784.0) = some ⟨131073, 59, 440⟩ := by decide +kernel
  have hvalue : value (parts 471862784.0) = (14745712 : ℕ) * 2 ^ (5 : ℤ) :=
    (Single.of_singleDatum (by decide +kernel)).2.2
  refine ⟨⟨by decide +kernel, by decide +kernel, by decide +kernel, fun c hc => ?_⟩,
    by decide +kernel, by decide +kernel, by decide +kernel, fun c hc => ?_⟩
  · obtain rfl := Option.some_inj.1 (hminute.symm.trans hc)
    exact lt_irrefl _
  · obtain rfl := Option.some_inj.1 (hhours.symm.trans hc)
    rw [Single.toReal_singleDatum, hvalue, time_eq]
    norm_num

end Clock

end Toolpath
