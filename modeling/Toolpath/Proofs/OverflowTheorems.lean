import Toolpath.Proofs.AbsorptionTheorems
import Toolpath.Proofs.DefinednessTheorems
import Toolpath.Proofs.PartitionTheorems
import Toolpath.Proofs.SpanTheorems

/-!
# Planned times that overflow

Whether a sample falls into a phase that takes a time that is a number might depend on where the
samples lie. It does not: a planned move has either such times in all of its phases or in none
(`Move.isNumber_duration_iff`), and what decides is whether its acceleration is finite.

* A finite peak is only planned where the acceleration is finite (`Move.HasEnds.isFinite_double`);
  all times are numbers then.
* A peak that is not finite is not held (`Move.HasEnds.not_held`). It is gained from a finite speed
  and lost to one, if it is gained or lost at all (`Move.HasEnds.isFinite_entry`,
  `Move.HasEnds.isFinite_exit`), and such a ramp takes a time that is a number exactly where the
  acceleration is finite (`isNumber_rampTime_iff`).

So a chain is defined under one sampling exactly where it is under another
(`Chain.isDefined_congr`).
-/

namespace Toolpath

open Scalar

variable {α : Type} [Scalar α] [Absorbing α]

/-! ## Ramps -/

/-- Between a finite speed and one that is not, a ramp takes a time that is a number exactly where
the acceleration is finite. -/
theorem isNumber_rampTime_iff {fromSq toSq a : α} (hfrom : 0.0 ≤ fromSq) (hto : 0.0 ≤ toSq)
    (ha : 0.0 < a) (hone : isFinite fromSq = true ∨ isFinite toSq = true)
    (hother : ¬ (isFinite fromSq = true ∧ isFinite toSq = true)) :
    IsNumber (abs (sqrt fromSq - sqrt toSq) / a) ↔ isFinite a = true := by
  constructor
  · intro hnumber
    rcases Absorbing.isFinite_or_of_div _ _ hnumber with habs | ha'
    · obtain ⟨hfrom', hto'⟩ := Absorbing.isFinite_of_sub _ _ (Absorbing.isFinite_of_abs _ habs)
      exact absurd ⟨Absorbing.isFinite_of_sqrt _ hfrom', Absorbing.isFinite_of_sqrt _ hto'⟩ hother
    · exact ha'
  · intro ha'
    have hdifference : IsNumber (sqrt fromSq - sqrt toSq) := by
      rcases hone with hfrom' | hto'
      · exact Rounding.isNumber_sub _ _ (Rounding.isFinite_sqrt _ hfrom hfrom')
          (Rounding.isNumber_sqrt _ hto)
      · exact Absorbing.isNumber_sub_right _ _ (Rounding.isNumber_sqrt _ hfrom)
          (Rounding.isFinite_sqrt _ hto hto')
    exact Rounding.isNumber_div _ _ (Rounding.isNumber_abs _ hdifference) ha ha'

/-! ## Crests that overflow -/

omit [Absorbing α] in
/-- The ramps of a move meet within it, or its peak is held between them. -/
theorem Move.crestAt_cases (m : Move α) (entrySq exitSq : α) :
    (∃ meeting, meeting = (exitSq / (2.0 * m.maxAccel) + m.length -
        entrySq / (2.0 * m.maxAccel)) / 2.0 ∧ 0.0 ≤ meeting ∧ meeting ≤ m.length ∧
      2.0 * m.maxAccel * (entrySq / (2.0 * m.maxAccel) + meeting) ≤ m.peakSq ∧
      m.crestAt entrySq exitSq =
        (2.0 * m.maxAccel * (entrySq / (2.0 * m.maxAccel) + meeting), meeting, meeting)) ∨
    m.crestAt entrySq exitSq =
      (m.peakSq, (m.peakSq - 2.0 * m.maxAccel * (entrySq / (2.0 * m.maxAccel))) /
          (2.0 * m.maxAccel),
        (2.0 * m.maxAccel * (exitSq / (2.0 * m.maxAccel) + m.length) - m.peakSq) /
          (2.0 * m.maxAccel)) := by
  unfold Move.crestAt crest
  dsimp only
  split_ifs with htriangle
  · exact .inl ⟨_, rfl, htriangle.1.1, htriangle.1.2, htriangle.2, rfl⟩
  · exact .inr rfl

/-- A move that stops gaining speed somewhere has a peak that is a number. -/
theorem isNumber_peakSq {m : Move α} {entrySq exitSq : α}
    (h : IsNumber (m.crestAt entrySq exitSq).2.1) : IsNumber m.peakSq := by
  rcases m.crestAt_cases entrySq exitSq with ⟨meeting, -, -, -, hbelow, -⟩ | heq
  · exact number_right hbelow
  · rw [heq] at h
    exact (Absorbing.isNumber_of_sub _ _ (Absorbing.isNumber_of_div _ _ h)).1

/-- A move that is planned between two squared speeds, neither of them below zero or above its
peak. -/
structure Move.HasEnds (m : Move α) (entrySq exitSq : α) : Prop where
  limited : m.IsLimited
  moving : ¬ m.AtRest
  entry : 0.0 ≤ entrySq
  entry_le : entrySq ≤ m.peakSq
  exit : 0.0 ≤ exitSq
  exit_le : exitSq ≤ m.peakSq
  /-- The move stops gaining speed somewhere. -/
  accelStop : IsNumber (m.crestAt entrySq exitSq).2.1

namespace Move.HasEnds

variable {m : Move α} {entrySq exitSq accelStop decelStart : α}

theorem maxAccel_pos (h : m.HasEnds entrySq exitSq) : 0.0 < m.maxAccel :=
  Move.maxAccel_pos h.limited h.moving

theorem double_pos (h : m.HasEnds entrySq exitSq) : 0.0 < 2.0 * m.maxAccel :=
  Rounding.zero_lt_double _ h.maxAccel_pos

/-- The ramp to a squared speed is not below zero. -/
theorem nonneg_ramp (h : m.HasEnds entrySq exitSq) {sq : α} (hsq : 0.0 ≤ sq) :
    Nonneg (sq / (2.0 * m.maxAccel)) :=
  Rounding.nonneg_div _ _ (nonneg_of_le hsq) (num_not_le_of_lt h.double_pos)

theorem nonneg_product (h : m.HasEnds entrySq exitSq) {x : α} (hx : Nonneg x) :
    Nonneg (2.0 * m.maxAccel * x) :=
  Rounding.nonneg_mul _ _ (nonneg_of_le (num_le_of_lt h.double_pos)) hx

theorem peakSq (h : m.HasEnds entrySq exitSq) : 0.0 ≤ m.peakSq := num_le_trans h.entry h.entry_le

/-- A finite crest takes an acceleration that can be doubled. -/
theorem isFinite_double (h : m.HasEnds entrySq exitSq)
    (hcrest : isFinite (m.crestAt entrySq exitSq).1 = true) :
    isFinite (2.0 * m.maxAccel) = true := by
  have hstop := h.accelStop
  rcases m.crestAt_cases entrySq exitSq with ⟨meeting, -, -, -, -, heq⟩ | heq
  · rw [heq] at hcrest
    exact (Absorbing.isFinite_of_mul _ _ hcrest).1
  · -- an infinite factor would have made the end of the acceleration no number
    rw [heq] at hstop
    have hproduct := (Absorbing.isNumber_of_sub _ _ (Absorbing.isNumber_of_div _ _ hstop)).2
    exact Absorbing.isFinite_of_mul_div _ _ hproduct

/-- A crest that is not finite is approached from a finite speed. -/
theorem isFinite_entry (h : m.HasEnds entrySq exitSq)
    (hcrest : ¬ isFinite (m.crestAt entrySq exitSq).1 = true) : isFinite entrySq = true := by
  have hstop := h.accelStop
  have hramp := h.nonneg_ramp h.entry
  rcases m.crestAt_cases entrySq exitSq with ⟨meeting, rfl, hzero, -, -, -⟩ | heq
  · -- from an infinite ramp the ramps would meet before the start of the move
    by_contra hentry
    have hramp' : ¬ isFinite (entrySq / (2.0 * m.maxAccel)) = true := fun hfinite =>
      hentry (Absorbing.isFinite_of_div _ _ hfinite)
    have hdifference := Absorbing.zero_le_of_half _ hzero fun hfinite =>
      hramp' (Absorbing.isFinite_of_sub _ _ hfinite).2
    exact hramp' (Absorbing.isFinite_of_zero_le_sub _ _ hdifference hramp)
  · rw [heq] at hcrest hstop
    rcases Absorbing.isFinite_or_of_sub _ _ (nonneg_of_le h.peakSq) (h.nonneg_product hramp)
        (Absorbing.isNumber_of_div _ _ hstop) with hpeak | hproduct
    · exact absurd hpeak hcrest
    · exact Absorbing.isFinite_of_div _ _ (Absorbing.isFinite_of_mul _ _ hproduct).2

/-- A crest that is not finite is not held: the ramps meet there, or gaining speed takes the whole
way. -/
theorem not_held (h : m.HasEnds entrySq exitSq)
    (hcrest : ¬ isFinite (m.crestAt entrySq exitSq).1 = true)
    (haccel : clampBetween (m.crestAt entrySq exitSq).2.1 0.0 m.length = .ok accelStop)
    (hdecel : clampBetween (m.crestAt entrySq exitSq).2.2 accelStop m.length = .ok decelStart) :
    ¬ accelStop < decelStart := by
  have hstop := h.accelStop
  intro hlt
  have hmem := mem_of_clampBetween hdecel (number_right (num_le_of_lt hlt))
  obtain ⟨hlength, haccel⟩ := clampBetween_eq_ok.1 haccel
  rcases m.crestAt_cases entrySq exitSq with ⟨meeting, -, hzero, hle, -, heq⟩ | heq
  · -- both places are the one where the ramps meet
    rw [heq] at haccel hdecel
    rw [clamp_of_mem hzero hle] at haccel
    subst haccel
    obtain ⟨-, hdecel⟩ := clampBetween_eq_ok.1 hdecel
    rw [clamp_of_mem (number_left hle) hle] at hdecel
    subst hdecel
    exact num_not_le_of_lt hlt (number_left hle)
  · rw [heq] at hcrest hstop haccel
    dsimp only at hcrest hstop haccel
    -- speed is gained for longer than any length
    have hdifference : Nonneg (m.peakSq - 2.0 * m.maxAccel * (entrySq / (2.0 * m.maxAccel))) :=
      Absorbing.nonneg_sub _ _ (nonneg_of_le h.peakSq) hcrest
    have hwhole := (Rounding.nonneg_div _ _ hdifference (num_not_le_of_lt h.double_pos)).zero_le
      hstop
    have hbeyond := Absorbing.le_of_not_isFinite _ m.length hwhole
      (fun hfinite => hcrest
        (Absorbing.isFinite_of_sub _ _ (Absorbing.isFinite_of_div _ _ hfinite)).1)
      (number_right hlength)
    have hend := le_clamp_of_le hlength hbeyond
    rw [haccel] at hend
    exact num_not_le_of_lt hlt (num_le_trans hmem.2 hend)

/-- Losing speed from a crest that is not finite leads to a finite speed. -/
theorem isFinite_exit (h : m.HasEnds entrySq exitSq)
    (hcrest : ¬ isFinite (m.crestAt entrySq exitSq).1 = true)
    (hdecel : clampBetween (m.crestAt entrySq exitSq).2.2 accelStop m.length = .ok decelStart)
    (hlt : decelStart < m.length) : isFinite exitSq = true := by
  have hlength := number_right (num_le_of_lt hlt)
  obtain ⟨hle, hdecel⟩ := clampBetween_eq_ok.1 hdecel
  have hramp : Nonneg (exitSq / (2.0 * m.maxAccel) + m.length) :=
    Rounding.nonneg_add _ _ (h.nonneg_ramp h.exit) h.limited.length
  -- it is enough that the ramp and the way together are finite
  have hfinite : isFinite (exitSq / (2.0 * m.maxAccel) + m.length) = true →
      isFinite exitSq = true :=
    fun hsum => Absorbing.isFinite_of_div _ _ (Absorbing.isFinite_of_add _ _ hsum).1
  rcases m.crestAt_cases entrySq exitSq with ⟨meeting, hmeeting, hzero, -, -, heq⟩ | heq
  · -- ramps that meet before the end of the move meet in a finite distance
    rw [heq] at hdecel
    have hfinite' : isFinite meeting = true := by
      by_contra hinfinite
      have hbeyond := Absorbing.le_of_not_isFinite _ m.length hzero hinfinite hlength
      have hend := le_clamp_of_le hle hbeyond
      rw [hdecel] at hend
      exact num_not_le_of_lt hlt hend
    rw [hmeeting] at hfinite'
    exact hfinite (Absorbing.isFinite_of_sub _ _ (Absorbing.isFinite_of_div _ _ hfinite')).1
  · rw [heq] at hcrest hdecel
    dsimp only at hcrest hdecel
    have hnumber : IsNumber ((2.0 * m.maxAccel * (exitSq / (2.0 * m.maxAccel) + m.length) -
        m.peakSq) / (2.0 * m.maxAccel)) := by
      by_contra hnumber
      rw [clamp_of_not_number hnumber] at hdecel
      rw [hdecel] at hnumber
      exact hnumber (number_left (num_le_of_lt hlt))
    rcases Absorbing.isFinite_or_of_sub _ _ (h.nonneg_product hramp) (nonneg_of_le h.peakSq)
        (Absorbing.isNumber_of_div _ _ hnumber) with hproduct | hpeak
    · exact hfinite (Absorbing.isFinite_of_mul _ _ hproduct).2
    · exact absurd hpeak hcrest

end Move.HasEnds

/-! ## Durations that overflow -/

/-- The phases of a planned move take times that are numbers exactly where its acceleration is
finite. -/
theorem Move.isNumber_duration_iff {m planned : Move α} {entrySq exitSq : α}
    (h : m.HasEnds entrySq exitSq) (hplanned : m.withProfile entrySq exitSq = .ok planned) :
    ∀ p ∈ planned.profile.phases, (IsNumber p.duration ↔ isFinite m.maxAccel = true) := by
  have hnonneg := Move.nonneg_peakSq_withProfile h.limited (nonneg_of_le h.entry) hplanned
  obtain ⟨accelStop, decelStart, haccel, hdecel, rfl⟩ :=
    (Move.withProfile_eq_ok h.moving).1 hplanned
  have hpeak : 0.0 ≤ (m.crestAt entrySq exitSq).1 :=
    hnonneg.zero_le (number_left (crest_le (number_right h.peakSq) _ _))
  -- the speeds at the ends, lowered to that of the crest
  have hentry : 0.0 ≤ least entrySq (m.crestAt entrySq exitSq).1 :=
    ((nonneg_of_le h.entry).least (nonneg_of_le hpeak)).zero_le
      (number_left (least_le (number_right hpeak)))
  have hexit : 0.0 ≤ least exitSq (m.crestAt entrySq exitSq).1 :=
    ((nonneg_of_le h.exit).least (nonneg_of_le hpeak)).zero_le
      (number_left (least_le (number_right hpeak)))
  intro p hp
  by_cases hcrest : isFinite (m.crestAt entrySq exitSq).1 = true
  · have ha := Rounding.isFinite_of_double _ (h.isFinite_double hcrest)
    have hentry' := Rounding.isFinite_of_le _ _ hentry (least_le (number_right hpeak)) hcrest
    exact iff_of_true
      (isNumber_duration h.maxAccel_pos ha hpeak hcrest hentry hentry' hexit p hp) ha
  · rcases mem_phasesBetween hp with ⟨-, rfl⟩ | ⟨hlt, rfl⟩ | ⟨hlt, rfl⟩
    · have hentry' := Rounding.isFinite_of_le _ _ hentry (least_le_left (number_right h.entry))
        (h.isFinite_entry hcrest)
      exact isNumber_rampTime_iff hentry hpeak h.maxAccel_pos (.inl hentry')
        fun hboth => hcrest hboth.2
    · exact absurd hlt (h.not_held hcrest haccel hdecel)
    · have hexit' := Rounding.isFinite_of_le _ _ hexit (least_le_left (number_right h.exit))
        (h.isFinite_exit hcrest hdecel hlt)
      exact isNumber_rampTime_iff hpeak hexit h.maxAccel_pos (.inr hexit')
        fun hboth => hcrest hboth.1

omit [Absorbing α] in
/-- A move with such phases has the times of its samples defined where it has no phases or a
finite acceleration. -/
theorem Move.hasTimes_iff {m : Move α}
    (h : ∀ p ∈ m.profile.phases, (IsNumber p.duration ↔ isFinite m.maxAccel = true))
    (settings : SamplingSettings α) :
    m.HasTimes settings ↔ (m.profile.phases ≠ [] → isFinite m.maxAccel = true) := by
  constructor
  · intro htimes hne
    -- the first sample falls into some phase
    have hfirst : ∃ found, phaseAt? (m.length * Move.stepRatio (0 + 1) (m.stepCount settings)) 0.0
        m.profile.phases = some found := exists_phaseAt? hne
    obtain ⟨⟨elapsed, p⟩, hphase⟩ := hfirst
    exact (h p (mem_of_phaseAt? hphase)).1 (htimes 0 (m.stepCount_pos settings) elapsed p hphase)
  · intro ha step _ elapsed p hphase
    have hp := mem_of_phaseAt? hphase
    exact (h p hp).2 (ha (List.ne_nil_of_mem hp))

/-! ## Chains that overflow -/

/-- A move of a chain that gets a profile has the speeds of its junctions at its ends. -/
theorem hasEnds_of_withProfile {moves : List (Move α)} (hmoves : ∀ m ∈ moves, m.IsLimited) {i : ℕ}
    (hi : i < moves.length) (hrest : ¬ moves[i].AtRest) {planned : Move α}
    (h : moves[i].withProfile (boundarySq (peakBefore none moves i) moves[i].peakSq)
      (boundarySq (peakAfter moves i) moves[i].peakSq) = .ok planned) :
    moves[i].HasEnds (boundarySq (peakBefore none moves i) moves[i].peakSq)
      (boundarySq (peakAfter moves i) moves[i].peakSq) := by
  have hlimited := hmoves _ (List.getElem_mem hi)
  have hpeaks : ∀ m ∈ moves, Nonneg m.peakSq := fun m hm => (hmoves m hm).peakSq
  have hstop := ((Move.exists_withProfile_iff_hasCrest _ _ _).1 ⟨planned, h⟩).resolve_left hrest
  have hpeak : 0.0 ≤ moves[i].peakSq := hlimited.peakSq.zero_le (isNumber_peakSq hstop.2)
  exact {
    limited := hlimited
    moving := hrest
    entry := zero_le_boundarySq (forall_peakBefore hpeaks i) hpeak
    entry_le := boundarySq_le hpeak
    exit := zero_le_boundarySq (forall_peakAfter hpeaks i) hpeak
    exit_le := boundarySq_le hpeak
    accelStop := hstop.2 }

/-- The phases of a planned chain take times that are numbers exactly where the accelerations are
finite. -/
theorem isNumber_duration_plan_iff {c planned : Chain α} (hc : ∀ m ∈ c.moves, m.IsLimited)
    (hplan : c.plan = .ok planned) : ∀ m ∈ planned.moves, ∀ p ∈ m.profile.phases,
      (IsNumber p.duration ↔ isFinite m.maxAccel = true) := by
  obtain ⟨hlen, hget⟩ := profileMoves_getElem (Chain.plan_eq_ok.1 hplan)
  have hlimited := isLimited_feasiblePeaks hc
  intro m hm
  obtain ⟨i, hi, rfl⟩ := List.mem_iff_getElem.1 hm
  have hi' : i < (feasiblePeaks c.moves).length := by omega
  have hplanned := hget i hi' hi
  by_cases hrest : (feasiblePeaks c.moves)[i].AtRest
  · rw [Move.withProfile_of_atRest hrest] at hplanned
    rw [← Except.ok.inj hplanned]
    exact fun p hp => absurd hp List.not_mem_nil
  · have hends := hasEnds_of_withProfile hlimited hi' hrest hplanned
    have haccel : planned.moves[i].maxAccel = (feasiblePeaks c.moves)[i].maxAccel :=
      (Move.replanned_withProfile hplanned).maxAccel
    rw [haccel]
    exact Move.isNumber_duration_iff hends hplanned

/-- Whether a chain is defined does not depend on how it is sampled. -/
theorem Chain.isDefined_congr {c : Chain α} (hc : ∀ m ∈ c.moves, m.IsLimited)
    (settings settings' : SamplingSettings α) : c.IsDefined settings ↔ c.IsDefined settings' := by
  refine and_congr_right fun _ => forall₂_congr fun planned hplan => forall₂_congr fun m hm => ?_
  have hnumber := isNumber_duration_plan_iff hc hplan m hm
  rw [Move.hasTimes_iff hnumber settings, Move.hasTimes_iff hnumber settings']

end Toolpath
