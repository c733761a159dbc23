import Toolpath.Proofs.OutcomeTheorems
import Toolpath.Proofs.ProfileTheorems

/-!
# Rest at the ends of a chain

A chain is planned from rest to rest, but a move stands still at its end only if there is a phase
to change its speed in. The planner cuts the phases at the ends of acceleration and deceleration,
`Move.accelCut` and `Move.decelCut`; both can be read off the planned move again, because its peak
is the one of its crest (`crest_of_peak`).

Under rounding a cut may fall onto the end of the move although the peak is above zero: a peak that
is small beside `2 * a * length` is lost in the difference from which the start of deceleration is
computed. Then the phase is missing and the move starts or ends at its peak. What the ends of a
chain are, in every simulation, is `Chain.EndsAsCut`; that of `slowLine` does not end at rest.
-/

namespace Toolpath

open Scalar

variable {α : Type} [Scalar α]

/-! ## The cuts of a move -/

/-- Where a planned move stops gaining speed. -/
def Move.accelCut (m : Move α) : α :=
  clamp (crest m m.profile.entryRamp m.profile.exitRamp).2.1 0.0 m.length

/-- Where a planned move starts losing speed. -/
def Move.decelCut (m : Move α) : α :=
  clamp (crest m m.profile.entryRamp m.profile.exitRamp).2.2 m.accelCut m.length

/-- A move whose limit is the crest of another has the same crest. -/
theorem crest_of_peak [NumberOrder α] {m n : Move α} {entryRamp exitRamp : α}
    (hlength : n.length = m.length) (haccel : n.maxAccel = m.maxAccel)
    (hpeak : n.peakSq = (crest m entryRamp exitRamp).1) :
    crest n entryRamp exitRamp = crest m entryRamp exitRamp := by
  unfold crest at hpeak ⊢
  dsimp only at hpeak ⊢
  rw [hlength, haccel]
  split_ifs at hpeak with htriangle
  · -- a triangle stays one below its own crest
    dsimp only at hpeak
    rw [if_pos htriangle, if_pos ⟨htriangle.1, by rw [hpeak]; exact number_left htriangle.2⟩]
  · dsimp only at hpeak
    rw [hpeak]

/-- The cuts of a planned move are the bounds of its crest, clamped one after the other. -/
theorem Move.cuts_withProfile [NumberOrder α] {m planned : Move α} (hrest : ¬ m.AtRest)
    {entrySq exitSq : α} (h : m.withProfile entrySq exitSq = .ok planned) :
    clampBetween (m.crestAt entrySq exitSq).2.1 0.0 m.length = .ok planned.accelCut ∧
      clampBetween (m.crestAt entrySq exitSq).2.2 planned.accelCut m.length
        = .ok planned.decelCut ∧
      m.withPhases entrySq exitSq (m.crestAt entrySq exitSq).1 planned.accelCut planned.decelCut
        = planned := by
  obtain ⟨accelStop, decelStart, haccel, hdecel, hplanned⟩ := (Move.withProfile_eq_ok hrest).1 h
  have hlength : planned.length = m.length := by
    rw [← hplanned]
    rfl
  have hcrest : crest planned planned.profile.entryRamp planned.profile.exitRamp =
      m.crestAt entrySq exitSq := by
    rw [← hplanned]
    exact crest_of_peak rfl rfl rfl
  have haccelCut : planned.accelCut = accelStop := by
    rw [Move.accelCut, hcrest, hlength]
    exact (clampBetween_eq_ok.1 haccel).2
  have hdecelCut : planned.decelCut = decelStart := by
    rw [Move.decelCut, hcrest, haccelCut, hlength]
    exact (clampBetween_eq_ok.1 hdecel).2
  rw [haccelCut, hdecelCut]
  exact ⟨haccel, hdecel, hplanned⟩

/-- The phases of a planned move that carries a profile lie between its cuts. -/
theorem Move.phases_of_not_atRest [NumberOrder α] {m planned : Move α} (hrest : ¬ m.AtRest)
    {entrySq exitSq : α} (h : m.withProfile entrySq exitSq = .ok planned) :
    planned.profile.phases = phasesBetween planned planned.peakSq planned.accelCut
      planned.decelCut (least entrySq planned.peakSq) (least exitSq planned.peakSq) := by
  obtain ⟨-, -, hplanned⟩ := Move.cuts_withProfile hrest h
  generalize planned.accelCut = accelStop at hplanned ⊢
  generalize planned.decelCut = decelStart at hplanned ⊢
  rw [← hplanned]
  rfl

/-- The phases of a planned move lie between its cuts, if it has any. -/
theorem Move.phases_withProfile [NumberOrder α] {m planned : Move α} {entrySq exitSq : α}
    (h : m.withProfile entrySq exitSq = .ok planned) :
    planned.profile.phases = [] ∨
      planned.profile.phases = phasesBetween planned planned.peakSq planned.accelCut
        planned.decelCut (least entrySq planned.peakSq) (least exitSq planned.peakSq) := by
  by_cases hrest : m.AtRest
  · rw [Move.withProfile_of_atRest hrest] at h
    cases h
    exact .inl rfl
  · exact .inr (Move.phases_of_not_atRest hrest h)

theorem entrySq_of_phases {m : Move α} {peakSq accelStop decelStart entrySq exitSq speedSq : α}
    (hphases : m.profile.phases = phasesBetween m peakSq accelStop decelStart entrySq exitSq)
    (h : m.entrySq? = some speedSq) : speedSq = if 0.0 < accelStop then entrySq else peakSq := by
  rw [Move.entrySq?, hphases, phasesBetween] at h
  split_ifs at h ⊢
  all_goals first
    | exact (Option.some.inj h).symm
    | cases h

theorem exitSq_of_phases {m : Move α} {peakSq accelStop decelStart entrySq exitSq speedSq : α}
    (hphases : m.profile.phases = phasesBetween m peakSq accelStop decelStart entrySq exitSq)
    (h : m.exitSq? = some speedSq) :
    speedSq = if decelStart < m.length then exitSq else peakSq := by
  rw [Move.exitSq?, hphases, phasesBetween] at h
  split_ifs at h ⊢
  all_goals first
    | exact (Option.some.inj h).symm
    | cases h

/-! ## Speeds at the ends -/

section Rounding

variable [Rounding α]

/-- A planned peak is not below zero. -/
theorem Move.nonneg_peakSq_withProfile {m planned : Move α} (hm : m.IsLimited) {entrySq exitSq : α}
    (hentry : Nonneg entrySq) (h : m.withProfile entrySq exitSq = .ok planned) :
    Nonneg planned.peakSq := by
  by_cases hrest : m.AtRest
  · rw [Move.withProfile_of_atRest hrest] at h
    cases h
    exact hm.peakSq
  · obtain ⟨accelStop, decelStart, -, -, rfl⟩ := (Move.withProfile_eq_ok hrest).1 h
    show Nonneg (m.crestAt entrySq exitSq).1
    have hdouble := Rounding.zero_lt_double _ (m.maxAccel_pos hm hrest)
    unfold Move.crestAt crest
    dsimp only
    split_ifs with htriangle
    · exact Rounding.nonneg_mul _ _ (nonneg_of_le (num_le_of_lt hdouble))
        (Rounding.nonneg_add _ _ (Rounding.nonneg_div _ _ hentry (num_not_le_of_lt hdouble))
          (nonneg_of_le htriangle.1.1))
    · exact hm.peakSq

theorem least_zero {x : α} (h : Nonneg x) : least 0.0 x = 0.0 := by
  unfold least
  rw [if_neg h]
  exact if_pos isNumber_zero

/-- A move that is planned from rest starts at zero, or at its peak where it has no stretch to gain
speed in. -/
theorem Move.entrySq_withProfile {m planned : Move α} (hm : m.IsLimited) {exitSq speedSq : α}
    (h : m.withProfile 0.0 exitSq = .ok planned) (hspeed : planned.entrySq? = some speedSq) :
    speedSq = if 0.0 < planned.accelCut then 0.0 else planned.peakSq := by
  have hpeak := Move.nonneg_peakSq_withProfile hm (nonneg_of_le isNumber_zero) h
  rcases Move.phases_withProfile h with hnil | hphases
  · rw [Move.entrySq?, hnil] at hspeed
    contradiction
  · rw [least_zero hpeak] at hphases
    exact entrySq_of_phases hphases hspeed

/-- A move that is planned to rest ends at zero, or at its peak where it has no stretch to lose
speed in. -/
theorem Move.exitSq_withProfile {m planned : Move α} (hm : m.IsLimited) {entrySq speedSq : α}
    (hentry : Nonneg entrySq) (h : m.withProfile entrySq 0.0 = .ok planned)
    (hspeed : planned.exitSq? = some speedSq) :
    speedSq = if planned.decelCut < planned.length then 0.0 else planned.peakSq := by
  have hpeak := Move.nonneg_peakSq_withProfile hm hentry h
  rcases Move.phases_withProfile h with hnil | hphases
  · rw [Move.exitSq?, hnil] at hspeed
    contradiction
  · rw [least_zero hpeak] at hphases
    exact exitSq_of_phases hphases hspeed

/-- A chain starts and ends at rest where its first and its last move have a stretch to change their
speed in. Where rounding leaves none, it starts or ends at the peak of that move. -/
structure Chain.EndsAsCut (c : Chain α) : Prop where
  start : ∀ first speedSq, c.moves.head? = some first → first.entrySq? = some speedSq →
    speedSq = if 0.0 < first.accelCut then 0.0 else first.peakSq
  stop : ∀ last speedSq, c.moves.getLast? = some last → last.exitSq? = some speedSq →
    speedSq = if last.decelCut < last.length then 0.0 else last.peakSq

/-- Planning ends a chain of limited moves as its cuts fall. -/
theorem Chain.endsAsCut_plan {c planned : Chain α} (h : ∀ m ∈ c.moves, m.IsLimited)
    (hplan : c.plan = .ok planned) : planned.EndsAsCut := by
  obtain ⟨hlen, hget⟩ := profileMoves_getElem (Chain.plan_eq_ok.1 hplan)
  have hlimited := isLimited_feasiblePeaks h
  constructor
  case start =>
    intro first speedSq hfirst hspeed
    rw [List.head?_eq_getElem?] at hfirst
    obtain ⟨hi, rfl⟩ := List.getElem?_eq_some_iff.1 hfirst
    -- nothing lies before the first move, so it is entered at zero
    exact Move.entrySq_withProfile (hlimited _ (List.getElem_mem _)) (hget 0 (by omega) hi) hspeed
  case stop =>
    intro last speedSq hlast hspeed
    rw [List.getLast?_eq_getElem?] at hlast
    obtain ⟨hi, rfl⟩ := List.getElem?_eq_some_iff.1 hlast
    have hi' : planned.moves.length - 1 < (feasiblePeaks c.moves).length := by omega
    have hend : peakAfter (feasiblePeaks c.moves) (planned.moves.length - 1) = none := by
      rw [peakAfter, List.getElem?_eq_none (by omega), Option.map_none]
    have hmove := hget (planned.moves.length - 1) hi' hi
    rw [hend] at hmove
    have hpeaks := fun m hm => (hlimited m hm).peakSq
    exact Move.exitSq_withProfile (hlimited _ (List.getElem_mem _))
      (nonneg_boundarySq (forall_peakBefore hpeaks _) (hpeaks _ (List.getElem_mem _))) hmove hspeed

end Rounding

/-! ## Simulations -/

/-- In single precision, under accepted settings, every chain of a simulation ends as its cuts
fall. -/
theorem simulate_endsAsCut {s : Settings Float32} {p : Program} (h : s.validate = .ok ())
    {sim : Simulation Float32} (hsim : simulate s p = .ok sim) : ∀ c ∈ sim.chains, c.EndsAsCut := by
  obtain ⟨planned, sampler, hrun, rfl⟩ := simulate_eq_ok.1 hsim
  obtain ⟨hplans, -⟩ := planAndSample_eq_ok.1 hrun
  intro c hc
  obtain ⟨i, hi, rfl⟩ := List.mem_iff_getElem.1 hc
  have hi' : i < (unplanned s p).length := by
    rw [unplanned, hplans.length_eq]
    exact hi
  exact Chain.endsAsCut_plan (isLimited_unplanned h p _ (List.getElem_mem hi')) (hplans.get hi' hi)

/-- A long line at a low speed, under the default settings. -/
def slowLine : Program := [.ofPairs 1 [('G', 1.0), ('F', 1.0), ('X', 10.0)]]

/-- Its one chain does not end at rest: the peak is lost in the start of its deceleration. -/
theorem simulate_slowLine : (Settings.default : Settings Float32).validate = .ok () ∧
    ∃ sim, simulate (Settings.default : Settings Float32) slowLine = .ok sim ∧
      ∃ c ∈ sim.chains, ∃ last ∈ c.moves.getLast?, ∃ speedSq ∈ last.exitSq?, 0.0 < speedSq := by
  refine ⟨by decide +kernel, ?_⟩
  have hchains : ∃ c ∈ ((simulate (Settings.default : Settings Float32) slowLine).toOption.map
      (·.chains)).getD [], ∃ last ∈ c.moves.getLast?, ∃ speedSq ∈ last.exitSq?, 0.0 < speedSq := by
    decide +kernel
  rcases hsim : simulate (Settings.default : Settings Float32) slowLine with fault | sim
  · rw [hsim] at hchains
    obtain ⟨c, hc, -⟩ := hchains
    exact absurd hc List.not_mem_nil
  · rw [hsim] at hchains
    exact ⟨sim, rfl, hchains⟩

/-- It ends as its cuts fall. -/
theorem simulate_endsAsCut_slowLine : (Settings.default : Settings Float32).validate = .ok () ∧
    ∃ sim, simulate (Settings.default : Settings Float32) slowLine = .ok sim ∧
      ∀ c ∈ sim.chains, c.EndsAsCut := by
  have hvalid : (Settings.default : Settings Float32).validate = .ok () := by decide +kernel
  have hok : (simulate (Settings.default : Settings Float32) slowLine).toBool = true := by
    decide +kernel
  obtain ⟨sim, hsim⟩ := exists_simulate_of_toBool hok
  exact ⟨hvalid, sim, hsim, simulate_endsAsCut hvalid hsim⟩

end Toolpath
