import Toolpath.Simulation
import Toolpath.Proofs.CrestTheorems
import Toolpath.Proofs.SamplerTheorems

/-!
# Where a simulation is defined

A simulation fails where a clamp finds its bounds out of order, and under rounding that is where
one of them is no number. Traced through the sampler and the planner, this says of which moves
the simulation depends:

* planning a move goes through where its length and the end of its acceleration are numbers
  (`Move.HasCrest`), and planning a chain where this holds of all its moves (`Chain.HasPlan`);
* sampling a planned move goes through where every sample falls into a phase that takes a time
  that is a number (`Move.HasTimes`, `exists_sampleMove_iff`);
* planning and sampling chains goes through exactly where both hold of each of them
  (`Chain.IsDefined`, `exists_planAndSample_iff`).

Where the peaks stay finite, `Chain.IsTame`, all of this comes down to the lengths of the moves
(`Chain.IsTame.isDefined_iff`).
-/

namespace Toolpath

open Scalar

variable {α : Type} [Scalar α] [Rounding α]

/-! ## Planning -/

/-- The bounds that the crest of a move is clamped between are numbers. -/
def Move.HasCrest (m : Move α) (entrySq exitSq : α) : Prop :=
  m.AtRest ∨ IsNumber m.length ∧ IsNumber (m.crestAt entrySq exitSq).2.1

/-- The crests of all moves of a chain are clamped between numbers. -/
def Chain.HasPlan (c : Chain α) : Prop :=
  ∀ (i : ℕ) (_ : i < (feasiblePeaks c.moves).length), (feasiblePeaks c.moves)[i].HasCrest
    (boundarySq (peakBefore none (feasiblePeaks c.moves) i) (feasiblePeaks c.moves)[i].peakSq)
    (boundarySq (peakAfter (feasiblePeaks c.moves) i) (feasiblePeaks c.moves)[i].peakSq)

theorem Move.exists_withProfile_iff_hasCrest (m : Move α) (entrySq exitSq : α) :
    (∃ planned, m.withProfile entrySq exitSq = .ok planned) ↔ m.HasCrest entrySq exitSq := by
  by_cases hrest : m.AtRest
  · exact ⟨fun _ => .inl hrest, fun _ => ⟨_, Move.withProfile_of_atRest hrest entrySq exitSq⟩⟩
  · rw [Move.exists_withProfile_iff hrest]
    constructor
    · rintro ⟨hlength, hcrest⟩
      exact .inr ⟨number_right hlength, hcrest⟩
    · rintro (hatRest | ⟨hlength, hcrest⟩)
      · exact absurd hatRest hrest
      · -- a move that does not rest is longer than nothing
        have hshort : IsNumber (minPlannedLength : α) := number_right Rounding.zero_le_short
        have hlong := num_lt_of_not_le hlength hshort fun hle => hrest (.inl hle)
        exact ⟨num_le_trans Rounding.zero_le_short (num_le_of_lt hlong), hcrest⟩

/-- Planning a chain goes through exactly where the crests of its moves are defined. -/
theorem exists_plan_iff (c : Chain α) : (∃ planned, c.plan = .ok planned) ↔ c.HasPlan := by
  constructor
  · rintro ⟨planned, hplan⟩ i hi
    obtain ⟨hlen, hget⟩ := profileMoves_getElem (Chain.plan_eq_ok.1 hplan)
    have hplanned := hget i hi (by omega)
    exact (Move.exists_withProfile_iff_hasCrest _ _ _).1 ⟨_, hplanned⟩
  · intro h
    have hmoves : ∃ moves, profileMoves none (feasiblePeaks c.moves) = .ok moves :=
      exists_profileMoves fun i hi => (Move.exists_withProfile_iff_hasCrest _ _ _).2 (h i hi)
    obtain ⟨moves, hmoves⟩ := hmoves
    exact ⟨⟨moves⟩, Chain.plan_eq_ok.2 hmoves⟩

/-- Planned phases take no time below zero. -/
theorem nonneg_duration_plan {c planned : Chain α} (h : c.plan = .ok planned) :
    ∀ m ∈ planned.moves, ∀ p ∈ m.profile.phases, Nonneg p.duration := by
  obtain ⟨hlen, hget⟩ := profileMoves_getElem (Chain.plan_eq_ok.1 h)
  intro m hm
  obtain ⟨i, hi, rfl⟩ := List.mem_iff_getElem.1 hm
  exact nonneg_duration_withProfile (hget i (by omega) hi)

/-! ## Sampling -/

/-- Every sample of a move falls into a phase that takes a time that is a number. -/
def Move.HasTimes (m : Move α) (settings : SamplingSettings α) : Prop :=
  ∀ step < m.stepCount settings, ∀ elapsed p,
    phaseAt? (m.length * Move.stepRatio (step + 1) (m.stepCount settings)) 0.0 m.profile.phases
      = some (elapsed, p) → IsNumber p.duration

theorem exists_passageAt_iff {m : Move α} (hm : ∀ p ∈ m.profile.phases, Nonneg p.duration)
    (ratio : α) : (∃ passage, m.passageAt ratio = .ok passage) ↔
      ∀ elapsed p, phaseAt? (m.length * ratio) 0.0 m.profile.phases = some (elapsed, p) →
        IsNumber p.duration := by
  unfold Move.passageAt
  dsimp only
  rcases hphase : phaseAt? (m.length * ratio) 0.0 m.profile.phases with _ | ⟨elapsed, p⟩
  · exact ⟨fun _ elapsed p h => absurd h (by simp), fun _ => ⟨_, rfl⟩⟩
  · have hnonneg := hm p (mem_of_phaseAt? hphase)
    simp only [bind_eq_ok, clampBetween_eq_ok]
    constructor
    · rintro ⟨_, _, ⟨hle, -⟩, -⟩ elapsed' p' heq
      cases heq
      exact number_right hle
    · intro h
      have hle : 0.0 ≤ p.duration := hnonneg.zero_le (h elapsed p rfl)
      exact ⟨_, _, ⟨hle, rfl⟩, rfl⟩

namespace Sampler

omit [Rounding α] in
/-- Sampling a move goes through exactly where all of its steps do. -/
theorem exists_sampleMove_iff_steps (m : Move α) (s : Sampler α) :
    (∃ s', s.sampleMove m = .ok s') ↔
      ∃ out, (List.range (m.stepCount s.track.settings)).foldlM
        (fun (u, _) j => pushStep m s.clock (m.stepCount s.track.settings) (j + 1) u)
        (s.opened m, (s.opened m).track.vertexCount - 1) = .ok out := by
  simp only [sampleMove_eq_ok]
  constructor
  · rintro ⟨_, out, hout, -⟩
    exact ⟨out, hout⟩
  · rintro ⟨out, hout⟩
    exact ⟨_, out, hout, rfl⟩

/-- Sampling a move goes through exactly where the times of its samples are defined. -/
theorem exists_sampleMove_iff {m : Move α} (hm : ∀ p ∈ m.profile.phases, Nonneg p.duration)
    (s : Sampler α) : (∃ s', s.sampleMove m = .ok s') ↔ m.HasTimes s.track.settings := by
  -- whether a step goes through does not depend on the sampler
  have hstep : ∀ j ∈ List.range (m.stepCount s.track.settings), ∀ u : Sampler α × ℕ, True →
      ((∃ out, pushStep m s.clock (m.stepCount s.track.settings) (j + 1) u.1 = .ok out) ↔
        ∀ elapsed p, phaseAt? (m.length * Move.stepRatio (j + 1) (m.stepCount s.track.settings))
          0.0 m.profile.phases = some (elapsed, p) → IsNumber p.duration) := by
    intro j _ u _
    rw [← exists_passageAt_iff hm]
    simp only [pushStep_eq_ok]
    constructor
    · rintro ⟨_, passage, hpassage, -⟩
      exact ⟨passage, hpassage⟩
    · rintro ⟨passage, hpassage⟩
      exact ⟨_, passage, hpassage, rfl⟩
  rw [exists_sampleMove_iff_steps,
    exists_foldlM_iff (fun _ => True) hstep (fun _ _ _ _ _ => trivial) trivial]
  simp only [List.mem_range, Move.HasTimes]

/-- A planned chain is sampled exactly where the times of its moves are defined. -/
theorem exists_sampleChain_iff {c : Chain α}
    (hm : ∀ m ∈ c.moves, ∀ p ∈ m.profile.phases, Nonneg p.duration) (s : Sampler α) :
    (∃ s', s.sampleChain c = .ok s') ↔ ∀ m ∈ c.moves, m.HasTimes s.track.settings := by
  have hchain : (∃ s', s.sampleChain c = .ok s') ↔
      ∃ u, c.moves.foldlM sampleMove s = .ok u := by
    simp only [sampleChain_eq_ok]
    exact ⟨fun ⟨_, u, hu, _⟩ => ⟨u, hu⟩, fun ⟨u, hu⟩ => ⟨_, u, hu, rfl⟩⟩
  -- of the sampler only the settings count, and they stay
  have hstep : ∀ m ∈ c.moves, ∀ u : Sampler α, u.track.settings = s.track.settings →
      ((∃ u', u.sampleMove m = .ok u') ↔ m.HasTimes s.track.settings) := by
    intro m hmem u hu
    rw [exists_sampleMove_iff (hm m hmem), hu]
  rw [hchain]
  exact exists_foldlM_iff (fun u => u.track.settings = s.track.settings) hstep
    (fun u m u' hu hu' => (settings_sampleMove hu').trans hu) rfl

end Sampler

/-! ## Planning and sampling -/

/-- A chain is planned, and its plan is sampled. -/
def Chain.IsDefined (c : Chain α) (settings : SamplingSettings α) : Prop :=
  c.HasPlan ∧ ∀ planned, c.plan = .ok planned → ∀ m ∈ planned.moves, m.HasTimes settings

/-- Planning and sampling chains goes through exactly where all of them are defined. -/
theorem exists_planAndSample_iff (s : Sampler α) (chains : List (Chain α)) :
    (∃ out, planAndSample s chains = .ok out) ↔
      ∀ c ∈ chains, c.IsDefined s.track.settings := by
  induction chains generalizing s with
  | nil => exact ⟨fun _ c hc => absurd hc List.not_mem_nil, fun _ => ⟨_, rfl⟩⟩
  | cons c rest ih =>
    rw [List.forall_mem_cons]
    simp only [planAndSample, bind_eq_ok]
    constructor
    · rintro ⟨out, planned, hplan, s', hs', others, hothers, -⟩
      have hsettings := Sampler.settings_sampleChain hs'
      have htimes := (Sampler.exists_sampleChain_iff (nonneg_duration_plan hplan) s).1 ⟨s', hs'⟩
      have hrest := (ih s').1 ⟨others, hothers⟩
      rw [hsettings] at hrest
      refine ⟨⟨(exists_plan_iff c).1 ⟨planned, hplan⟩, ?_⟩, hrest⟩
      -- there is only one plan
      intro planned' hplan'
      rw [hplan] at hplan'
      cases hplan'
      exact htimes
    · rintro ⟨⟨hplan, htimes⟩, hrest⟩
      obtain ⟨planned, hplan⟩ := (exists_plan_iff c).2 hplan
      obtain ⟨s', hs'⟩ := (Sampler.exists_sampleChain_iff (nonneg_duration_plan hplan) s).2
        (htimes planned hplan)
      have hsettings := Sampler.settings_sampleChain hs'
      rw [← hsettings] at hrest
      obtain ⟨others, hothers⟩ := (ih s').2 hrest
      exact ⟨_, planned, hplan, s', hs', others, hothers, rfl⟩

/-! ## Tame chains -/

/-- The moves that carry a profile are left a finite peak, and their accelerations can be
doubled. -/
def Chain.IsTame (c : Chain α) : Prop :=
  ∀ m ∈ feasiblePeaks c.moves, ¬ m.AtRest →
    isFinite m.peakSq = true ∧ isFinite (2.0 * m.maxAccel) = true

/-- The moves that carry a profile have a length that is a number. -/
def Chain.IsMeasured (c : Chain α) : Prop := ∀ m ∈ c.moves, ¬ m.AtRest → IsNumber m.length

namespace Chain.IsTame

variable {c : Chain α}

theorem of_moves (hc : ∀ m ∈ c.moves, m.IsLimited) (h : ∀ m ∈ c.moves, m.IsTame) : c.IsTame := by
  have hboth := forall_feasiblePeaks (fun m _ hm htame hentry => htame.lowerPeak hm hentry)
    fun m hm => ⟨hc m hm, h m hm⟩
  intro m hm _
  exact ⟨(hboth m hm).2.peakSq, (hboth m hm).2.double⟩

/-- A move of a tame chain, with its peak lowered, and the speeds at its ends. -/
theorem move (h : c.IsTame) (hc : ∀ m ∈ c.moves, m.IsLimited) (hlengths : c.IsMeasured) {i : ℕ}
    (hi : i < (feasiblePeaks c.moves).length) (hrest : ¬ (feasiblePeaks c.moves)[i].AtRest) :
    (feasiblePeaks c.moves)[i].IsTame ∧ (feasiblePeaks c.moves)[i].IsLimited ∧
      0.0 ≤ boundarySq (peakBefore none (feasiblePeaks c.moves) i)
        (feasiblePeaks c.moves)[i].peakSq ∧
      0.0 ≤ boundarySq (peakAfter (feasiblePeaks c.moves) i) (feasiblePeaks c.moves)[i].peakSq := by
  have hi' : i < c.moves.length := by rwa [length_feasiblePeaks] at hi
  have hlowered := lowered_getElem c.moves hi' hi
  have hlimited := isLimited_feasiblePeaks hc
  obtain ⟨hfinite, hdouble⟩ := h _ (List.getElem_mem hi) hrest
  have hlength : IsNumber (feasiblePeaks c.moves)[i].length := by
    rw [hlowered.length]
    exact hlengths _ (List.getElem_mem hi') fun hat => hrest (hlowered.atRest_iff.2 hat)
  have hpeak : 0.0 ≤ (feasiblePeaks c.moves)[i].peakSq :=
    (hlimited _ (List.getElem_mem hi)).peakSq.zero_le (Rounding.isNumber_of_isFinite _ hfinite)
  have hpeaks : ∀ m ∈ feasiblePeaks c.moves, Nonneg m.peakSq := fun m hm => (hlimited m hm).peakSq
  exact ⟨⟨hlength, hfinite, hdouble⟩, hlimited _ (List.getElem_mem hi),
    zero_le_boundarySq (forall_peakBefore hpeaks i) hpeak,
    zero_le_boundarySq (forall_peakAfter hpeaks i) hpeak⟩

theorem hasPlan (h : c.IsTame) (hc : ∀ m ∈ c.moves, m.IsLimited) (hlengths : c.IsMeasured) :
    c.HasPlan := by
  intro i hi
  by_cases hrest : (feasiblePeaks c.moves)[i].AtRest
  · exact .inl hrest
  · obtain ⟨htame, hlimited, hentry, -⟩ := h.move hc hlengths hi hrest
    exact .inr ⟨htame.length, (htame.crestAt hlimited hrest hentry _).1⟩

/-- The phases of a tame chain take times that are numbers. -/
theorem isNumber_duration_plan (h : c.IsTame) (hc : ∀ m ∈ c.moves, m.IsLimited)
    (hlengths : c.IsMeasured) {planned : Chain α} (hplan : c.plan = .ok planned) :
    ∀ m ∈ planned.moves, ∀ p ∈ m.profile.phases, IsNumber p.duration := by
  obtain ⟨hlen, hget⟩ := profileMoves_getElem (Chain.plan_eq_ok.1 hplan)
  intro m hm
  obtain ⟨i, hi, rfl⟩ := List.mem_iff_getElem.1 hm
  have hi' : i < (feasiblePeaks c.moves).length := by omega
  have hplanned := hget i hi' hi
  by_cases hrest : (feasiblePeaks c.moves)[i].AtRest
  · rw [Move.withProfile_of_atRest hrest] at hplanned
    rw [← Except.ok.inj hplanned]
    exact fun p hp => absurd hp List.not_mem_nil
  · obtain ⟨htame, hlimited, hentry, hexit⟩ := h.move hc hlengths hi' hrest
    exact htame.isNumber_duration hlimited hentry hexit hplanned

/-- A tame chain is defined exactly where its lengths are numbers. -/
theorem isDefined_iff (h : c.IsTame) (hc : ∀ m ∈ c.moves, m.IsLimited)
    (settings : SamplingSettings α) : c.IsDefined settings ↔ c.IsMeasured := by
  constructor
  · rintro ⟨hplan, -⟩ m hm hrest
    obtain ⟨i, hi, rfl⟩ := List.mem_iff_getElem.1 hm
    have hi' : i < (feasiblePeaks c.moves).length := by rwa [length_feasiblePeaks]
    have hlowered := lowered_getElem c.moves hi hi'
    rcases hplan i hi' with hat | ⟨hlength, -⟩
    · exact absurd (hlowered.atRest_iff.1 hat) hrest
    · rwa [hlowered.length] at hlength
  · intro hlengths
    refine ⟨h.hasPlan hc hlengths, ?_⟩
    intro planned hplan m hm step _ elapsed p hphase
    exact h.isNumber_duration_plan hc hlengths hplan m hm p (mem_of_phaseAt? hphase)

end Chain.IsTame

end Toolpath
