import Toolpath.Proofs.LimitTheorems
import Toolpath.Proofs.PassageTheorems

/-!
# Phases under rounding

The bounds that planning and sampling clamp between are a length, the end of the acceleration and
the duration of a phase. Under rounding none of them is below zero (`nonneg_duration` for the
durations), so a clamp finds its bounds out of order only where one of them is no number.

A move whose length is a number, whose peak is finite and whose acceleration can be doubled,
`Move.IsTame`, does not come to that: the bounds of its crest are numbers
(`Move.IsTame.crestAt`), and so are the durations of its phases (`isNumber_duration`). Straight
moves between finite points are tame (`Move.IsStraight.isTame`).
-/

namespace Toolpath

open Scalar

variable {α : Type} [Scalar α] [Rounding α]

/-! ## Durations -/

/-- No phase takes a time below zero. -/
theorem nonneg_duration {m : Move α} (ha : ¬ m.maxAccel ≤ 0.0)
    {peakSq accelStop decelStart entrySq exitSq : α} :
    ∀ p ∈ phasesBetween m peakSq accelStop decelStart entrySq exitSq, Nonneg p.duration := by
  intro p hp
  rcases mem_phasesBetween hp with ⟨-, rfl⟩ | ⟨hlt, rfl⟩ | ⟨-, rfl⟩
  · exact Rounding.nonneg_div _ _ (Rounding.nonneg_abs _) ha
  · show Nonneg (if 0.0 < sqrt peakSq then (decelStart - accelStop) / sqrt peakSq else 0.0)
    split_ifs with hspeed
    · exact Rounding.nonneg_div _ _ (nonneg_of_le (Rounding.zero_le_sub _ _ hlt))
        (num_not_le_of_lt hspeed)
    · exact nonneg_of_le isNumber_zero
  · exact Rounding.nonneg_div _ _ (Rounding.nonneg_abs _) ha

theorem nonneg_duration_withProfile {m planned : Move α} {entrySq exitSq : α}
    (h : m.withProfile entrySq exitSq = .ok planned) :
    ∀ p ∈ planned.profile.phases, Nonneg p.duration := by
  by_cases hrest : m.AtRest
  · rw [Move.withProfile_of_atRest hrest] at h
    cases h
    exact fun p hp => absurd hp List.not_mem_nil
  · obtain ⟨accelStop, decelStart, -, -, rfl⟩ := (Move.withProfile_eq_ok hrest).1 h
    exact nonneg_duration fun ha => hrest (.inr ha)

/-! ## Numbers -/

/-- Finite speeds are gained and lost in a time that is a number. -/
theorem isNumber_rampTime {fromSq toSq a : α} (hfrom : 0.0 ≤ fromSq) (hfrom' : isFinite fromSq)
    (hto : 0.0 ≤ toSq) (ha : 0.0 < a) (ha' : isFinite a) :
    IsNumber (abs (sqrt fromSq - sqrt toSq) / a) := by
  have hdifference : IsNumber (sqrt fromSq - sqrt toSq) :=
    Rounding.isNumber_sub _ _ (Rounding.isFinite_sqrt _ hfrom hfrom')
      (Rounding.isNumber_sqrt _ hto)
  exact Rounding.isNumber_div _ _ (Rounding.isNumber_abs _ hdifference) ha ha'

/-- Between finite speeds every phase takes a time that is a number. -/
theorem isNumber_duration {m : Move α} (ha : 0.0 < m.maxAccel) (ha' : isFinite m.maxAccel)
    {peakSq accelStop decelStart entrySq exitSq : α} (hpeak : 0.0 ≤ peakSq)
    (hpeak' : isFinite peakSq) (hentry : 0.0 ≤ entrySq) (hentry' : isFinite entrySq)
    (hexit : 0.0 ≤ exitSq) :
    ∀ p ∈ phasesBetween m peakSq accelStop decelStart entrySq exitSq, IsNumber p.duration := by
  intro p hp
  rcases mem_phasesBetween hp with ⟨-, rfl⟩ | ⟨hlt, rfl⟩ | ⟨-, rfl⟩
  · exact isNumber_rampTime hentry hentry' hpeak ha ha'
  · show IsNumber (if 0.0 < sqrt peakSq then (decelStart - accelStop) / sqrt peakSq else 0.0)
    split_ifs with hspeed
    · exact Rounding.isNumber_div _ _ (number_right (Rounding.zero_le_sub _ _ hlt)) hspeed
        (Rounding.isFinite_sqrt _ hpeak hpeak')
    · exact isNumber_zero
  · exact isNumber_rampTime hpeak hpeak' hexit ha ha'

/-- A move whose speed and acceleration leave room for the planner's arithmetic. -/
structure Move.IsTame (m : Move α) : Prop where
  length : IsNumber m.length
  peakSq : isFinite m.peakSq = true
  double : isFinite (2.0 * m.maxAccel) = true

/-- A lower peak leaves a move tame. -/
theorem Move.IsTame.lowerPeak {m : Move α} (h : m.IsTame) (hm : m.IsLimited) {entrySq : α}
    (hentry : Nonneg entrySq) : (m.lowerPeak entrySq).IsTame := by
  have hpeak : (m.lowerPeak entrySq).peakSq ≤ m.peakSq :=
    least_le_left (Rounding.isNumber_of_isFinite _ h.peakSq)
  have hzero := (hm.lowerPeak hentry).peakSq.zero_le (number_left hpeak)
  exact ⟨h.length, Rounding.isFinite_of_le _ _ hzero hpeak h.peakSq, h.double⟩

/-! ## Straight moves -/

/-- A point with finite coordinates. -/
structure Vec3.IsFinite (v : Vec3 α) : Prop where
  x : isFinite v.x = true
  y : isFinite v.y = true
  z : isFinite v.z = true

/-- The distance of two finite points may be infinite, but it is a number. -/
theorem isNumber_distance {a b : Vec3 α} (ha : a.IsFinite) (hb : b.IsFinite) :
    IsNumber (a.distance b) := by
  have hsquare : ∀ x y : α, isFinite x = true → isFinite y = true →
      0.0 ≤ (x - y) * (x - y) := by
    intro x y hx hy
    have hnum : IsNumber (x - y) :=
      Rounding.isNumber_sub _ _ hx (Rounding.isNumber_of_isFinite _ hy)
    exact (Rounding.nonneg_mul_self _).zero_le (Rounding.isNumber_mul_self _ hnum)
  have hsum : ∀ x y : α, 0.0 ≤ x → 0.0 ≤ y → 0.0 ≤ x + y := by
    intro x y hx hy
    exact (Rounding.nonneg_add _ _ (nonneg_of_le hx) (nonneg_of_le hy)).zero_le
      (Rounding.isNumber_add _ _ hx hy)
  have hlengthSq : 0.0 ≤ (a - b).lengthSq :=
    hsum _ _ (hsum _ _ (hsquare _ _ ha.x hb.x) (hsquare _ _ ha.y hb.y)) (hsquare _ _ ha.z hb.z)
  exact Rounding.isNumber_sqrt _ hlengthSq

/-- A straight move between finite points, at a speed with a finite square. -/
structure Move.IsStraight (m : Move α) : Prop where
  shape : m.shape = .line
  source : m.source.IsFinite
  target : m.target.IsFinite
  speed : isFinite (perSecond m.feedRate * perSecond m.feedRate) = true

theorem Move.IsStraight.isTame {m : Move α} (h : m.IsStraight) {acceleration : α}
    (ha : isFinite (2.0 * acceleration) = true) : (m.limited acceleration).IsTame := by
  have hlimits : m.limits acceleration =
      (perSecond m.feedRate * perSecond m.feedRate, acceleration) := by
    rw [Move.limits, h.shape]
  have hlength : m.courseLength = m.source.distance m.target := by
    rw [Move.courseLength, h.shape]
  rw [Move.limited, hlimits, hlength]
  exact ⟨isNumber_distance h.source h.target, h.speed, ha⟩

/-! ## Crests -/

/-- A tame move that does not rest is accelerated. -/
theorem Move.maxAccel_pos {m : Move α} (hm : m.IsLimited) (hrest : ¬ m.AtRest) :
    0.0 < m.maxAccel :=
  num_lt_of_not_le (number_right hm.maxAccel) isNumber_zero fun ha => hrest (.inr ha)

/-- The crest of a tame move lies between bounds that are numbers, at a finite speed. -/
theorem Move.IsTame.crestAt {m : Move α} (h : m.IsTame) (hm : m.IsLimited) (hrest : ¬ m.AtRest)
    {entrySq : α} (hentry : 0.0 ≤ entrySq) (exitSq : α) :
    IsNumber (m.crestAt entrySq exitSq).2.1 ∧ 0.0 ≤ (m.crestAt entrySq exitSq).1 ∧
      isFinite (m.crestAt entrySq exitSq).1 = true := by
  have hdouble : 0.0 < 2.0 * m.maxAccel := Rounding.zero_lt_double _ (m.maxAccel_pos hm hrest)
  have hlength : 0.0 ≤ m.length := hm.length.zero_le h.length
  have hpeak : 0.0 ≤ m.peakSq := hm.peakSq.zero_le (Rounding.isNumber_of_isFinite _ h.peakSq)
  -- the ramps may be infinite, but they are numbers
  have hramp : ∀ sq : α, 0.0 ≤ sq → 0.0 ≤ sq / (2.0 * m.maxAccel) := by
    intro sq hsq
    have hnum : IsNumber (sq / (2.0 * m.maxAccel)) :=
      Rounding.isNumber_div _ _ (number_right hsq) hdouble h.double
    exact (Rounding.nonneg_div _ _ (nonneg_of_le hsq) (num_not_le_of_lt hdouble)).zero_le hnum
  have hentryRamp := hramp entrySq hentry
  unfold Move.crestAt crest
  dsimp only
  split_ifs with hcrest
  · -- the ramps meet below the peak
    obtain ⟨⟨hmeeting, -⟩, hbelow⟩ := hcrest
    have hsq := (Rounding.nonneg_mul _ _ (nonneg_of_le (num_le_of_lt hdouble))
      (Rounding.nonneg_add _ _ (nonneg_of_le hentryRamp) (nonneg_of_le hmeeting))).zero_le
      (number_left hbelow)
    exact ⟨number_right hmeeting, hsq, Rounding.isFinite_of_le _ _ hsq hbelow h.peakSq⟩
  · -- the peak is reached
    have hproduct : IsNumber (2.0 * m.maxAccel * (entrySq / (2.0 * m.maxAccel))) :=
      Rounding.isNumber_mul _ _ hdouble h.double (number_right hentryRamp)
    have hdifference := Rounding.isNumber_sub _ _ h.peakSq hproduct
    exact ⟨Rounding.isNumber_div _ _ hdifference hdouble h.double, hpeak, h.peakSq⟩

/-- The profile of a tame move has phases that take a time that is a number. -/
theorem Move.IsTame.isNumber_duration {m planned : Move α} (h : m.IsTame) (hm : m.IsLimited)
    {entrySq exitSq : α} (hentry : 0.0 ≤ entrySq) (hexit : 0.0 ≤ exitSq)
    (hplanned : m.withProfile entrySq exitSq = .ok planned) :
    ∀ p ∈ planned.profile.phases, IsNumber p.duration := by
  by_cases hrest : m.AtRest
  · rw [Move.withProfile_of_atRest hrest] at hplanned
    cases hplanned
    exact fun p hp => absurd hp List.not_mem_nil
  · obtain ⟨accelStop, decelStart, -, -, rfl⟩ := (Move.withProfile_eq_ok hrest).1 hplanned
    obtain ⟨-, hpeak, hpeak'⟩ := h.crestAt hm hrest hentry exitSq
    have hleast : ∀ sq : α, 0.0 ≤ sq → 0.0 ≤ least sq (m.crestAt entrySq exitSq).1 := by
      intro sq hsq
      exact ((nonneg_of_le hsq).least (nonneg_of_le hpeak)).zero_le
        (number_left (least_le (number_right hpeak)))
    -- the speeds at the ends are at most that of the crest, so they are finite too
    have hentry' := Rounding.isFinite_of_le _ _ (hleast entrySq hentry)
      (least_le (number_right hpeak)) hpeak'
    exact Toolpath.isNumber_duration (m.maxAccel_pos hm hrest)
      (Rounding.isFinite_of_double _ h.double) hpeak hpeak' (hleast entrySq hentry) hentry'
      (hleast exitSq hexit)

end Toolpath
