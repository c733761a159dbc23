import Toolpath.Proofs.OverflowTheorems
import Toolpath.Proofs.TallyTheorems
import Toolpath.Proofs.ContinuationTheorems
import Toolpath.Proofs.PathTheorems

/-!
# Plans under different samplings

How finely motion is sampled, and how results are shown, has no influence on the plan of a program.
Two settings that agree on everything else, `Settings.PlansAlike`, come to the same chains,
problems and times (`Simulation.RunsAlike`).

* Programs are read alike, because no block is executed with a setting of the sampling
  (`Interpretation.isImage_run`).
* Sampling goes through under both settings or under neither: whether it does hangs on the plan
  alone (`exists_simulate_congr`).
* The samplers walk in step (`Sampler.InStep`). They add different samples, but the clock advances
  by the planned durations and never by the time of a sample, and the spans note the clock.
-/

namespace Toolpath

open Scalar

variable {α : Type}

/-- Settings that agree on all that plans are made with. -/
structure Settings.PlansAlike (s s' : Settings α) : Prop where
  machine : s'.machine = s.machine
  strictness : s'.strictness = s.strictness
  dwellSamples : s'.sampling.dwellSamples = s.sampling.dwellSamples
  dwellInterval : s'.sampling.dwellInterval = s.sampling.dwellInterval

/-- When a move runs: its line, its number, and the clock before and behind it. -/
def Span.timing (span : Span α) : ℕ × ℕ × α × α :=
  (span.line, span.index, span.startTime, span.endTime)

namespace Track

/-- Marks that differ in vertices note the same times. -/
theorem timing_mark {t t' : Track α} (h : t'.spans.map Span.timing = t.spans.map Span.timing)
    (index firstVertex endVertex firstVertex' endVertex' : ℕ) (startTime endTime : α) :
    (t'.mark index firstVertex' endVertex' startTime endTime).spans.map Span.timing =
      (t.mark index firstVertex endVertex startTime endTime).spans.map Span.timing := by
  apply Array.ext_getElem?
  intro i
  have hi : t'.spans[i]?.map Span.timing = t.spans[i]?.map Span.timing := by
    rw [← Array.getElem?_map, h, Array.getElem?_map]
  rw [Array.getElem?_map, Array.getElem?_map]
  by_cases hne : i = index
  · subst hne
    rw [mark_getElem?_self, mark_getElem?_self]
    -- of the marked span only the vertices and the times are set, and the times are the same
    rcases hspan : t.spans[i]? with _ | span
    · rw [hspan] at hi
      rw [Option.map_eq_none_iff.1 hi]
      rfl
    · rw [hspan] at hi
      obtain ⟨span', hspan', htiming⟩ := Option.map_eq_some_iff.1 hi
      simp only [Span.timing, Prod.mk.injEq] at htiming
      obtain ⟨hline, hindex, -⟩ := htiming
      rw [hspan', Option.map_some, Option.map_some, Option.map_some, Option.map_some, hindex]
      split_ifs
      · simp only [Span.timing, hline]
      · rw [hspan', Option.map_some, Option.map_some] at hi
        exact hi
  · rw [mark_getElem?_of_ne _ hne, mark_getElem?_of_ne _ hne]
    exact hi

/-- The line that runs at a time is looked up by the times of the spans. -/
theorem lineAt?_congr [Scalar α] {t t' : Track α}
    (h : t'.spans.map Span.timing = t.spans.map Span.timing) (time : α) :
    t'.lineAt? time = t.lineAt? time := by
  have hlookup : ∀ t : Track α, t.lineAt? time = (t.spans.map Span.timing)[leadingCount
      (t.spans.map Span.timing) (fun timing => decide (timing.2.2.1 ≤ time)) - 1]?.map (·.1) := by
    intro t
    rw [leadingCount_map, Array.getElem?_map, Option.map_map]
    rfl
  rw [hlookup, hlookup, h]

end Track

variable [Scalar α]

/-! ## Interpretation -/

/-- A block is executed alike. -/
theorem Machine.execute_congr {s s' : Settings α} (h : s.PlansAlike s') (m : Machine α)
    (b : Block) : m.execute s' b = m.execute s b := by
  unfold execute
  rw [h.machine, h.strictness]

/-- Whatever listens, a program is read alike. -/
theorem Interpretation.isImage_run {σ σ' : Type} {s s' : Settings α} (h : s.PlansAlike s')
    {listen : σ → Move α → σ} {listen' : σ' → Move α → σ'} {i : Interpretation α σ}
    {i' : Interpretation α σ'} (hi : IsImage id id i i') (p : Program) :
    IsImage id id (run s listen i p) (run s' listen' i' p) := by
  unfold run
  induction p generalizing i i' with
  | nil => exact hi
  | cons b rest ih =>
    refine ih (hi.step (fun _ _ => rfl) ?_)
    rw [hi.machine_eq, Machine.execute_congr h, Option.map_id]
    rfl

theorem isImage_interpret {s s' : Settings α} (h : s.PlansAlike s') (p : Program) :
    Interpretation.IsImage id id (interpret s p) (interpret s' p) := by
  have hstart : Interpretation.IsImage id id (Interpretation.start s (Track.empty s.sampling))
      (Interpretation.start s' (Track.empty s'.sampling)) := by
    refine ⟨?_, (Array.map_id _).symm, rfl⟩
    show Machine.initial s' = Machine.initial s
    rw [Machine.initial, Machine.initial, h.machine]
  exact Interpretation.isImage_run h hstart p

theorem path_interpret_congr {s s' : Settings α} (h : s.PlansAlike s') (p : Program) :
    (interpret s' p).path = (interpret s p).path := by
  rw [(isImage_interpret h p).path_eq, Array.map_id]

/-- The chains are the same before planning. -/
theorem unplanned_congr {s s' : Settings α} (h : s.PlansAlike s') (p : Program) :
    unplanned s' p = unplanned s p := by
  rw [unplanned, unplanned, path_interpret_congr h, h.machine]

/-! ## Sampling -/

namespace Sampler

/-- Two samplers that have come to the same time, with the same times noted. -/
structure InStep (s s' : Sampler α) : Prop where
  clock : s'.clock = s.clock
  dwellSamples : s'.track.settings.dwellSamples = s.track.settings.dwellSamples
  dwellInterval : s'.track.settings.dwellInterval = s.track.settings.dwellInterval
  timing : s'.track.spans.map Span.timing = s.track.spans.map Span.timing

namespace InStep

variable {s s' t t' : Sampler α}

/-- A move is sampled at different places, but it takes its planned duration. -/
theorem sampleMove (h : s.InStep s') {m : Move α} (ht : s.sampleMove m = .ok t)
    (ht' : s'.sampleMove m = .ok t') : t.InStep t' := by
  have hsettings := settings_sampleMove ht
  have hsettings' := settings_sampleMove ht'
  constructor
  case clock => rw [clock_sampleMove ht, clock_sampleMove ht', h.clock]
  case dwellSamples => rw [hsettings, hsettings', h.dwellSamples]
  case dwellInterval => rw [hsettings, hsettings', h.dwellInterval]
  case timing =>
    obtain ⟨out, hout, rfl⟩ := sampleMove_eq_ok.1 ht
    obtain ⟨out', hout', rfl⟩ := sampleMove_eq_ok.1 ht'
    have hsteps : out'.1.track.spans.map Span.timing = out.1.track.spans.map Span.timing := by
      rw [spans_pushSteps hout, spans_pushSteps hout', (s.onward_opened m).spans,
        (s'.onward_opened m).spans, h.timing]
    rw [h.clock]
    exact Track.timing_mark hsteps _ _ _ _ _ _ _

theorem dwell (h : s.InStep s') (point : Vec3 α) (pace : Pace) :
    (s.dwell point pace).InStep (s'.dwell point pace) where
  clock := by rw [clock_dwell, clock_dwell, h.dwellSamples, h.dwellInterval, h.clock]
  dwellSamples := by rw [settings_dwell, settings_dwell, h.dwellSamples]
  dwellInterval := by rw [settings_dwell, settings_dwell, h.dwellInterval]
  timing := by rw [spans_dwell, spans_dwell, h.timing]

theorem sampleChain (h : s.InStep s') {c : Chain α} (ht : s.sampleChain c = .ok t)
    (ht' : s'.sampleChain c = .ok t') : t.InStep t' := by
  obtain ⟨u, hu, rfl⟩ := sampleChain_eq_ok.1 ht
  obtain ⟨u', hu', rfl⟩ := sampleChain_eq_ok.1 ht'
  have hmoves : u.InStep u' := foldlM_related (f := Sampler.sampleMove) (k := Sampler.sampleMove)
    InStep (fun _ _ _ _ _ hs hstep hstep' => hs.sampleMove hstep hstep') h hu hu'
  cases c.moves.getLast? with
  | none => exact hmoves
  | some last => exact hmoves.dwell last.target last.pace

theorem sampleChains (h : s.InStep s') {chains : List (Chain α)}
    (ht : chains.foldlM Sampler.sampleChain s = .ok t)
    (ht' : chains.foldlM Sampler.sampleChain s' = .ok t') : t.InStep t' :=
  foldlM_related (f := Sampler.sampleChain) (k := Sampler.sampleChain) InStep
    (fun _ _ _ _ _ hs hstep hstep' => hs.sampleChain hstep hstep') h ht ht'

end InStep

/-- Sampling starts in step. -/
theorem inStep_start {s s' : Settings α} (h : s.PlansAlike s') (p : Program) :
    (Sampler.start (interpret s p).heard).InStep (.start (interpret s' p).heard) := by
  have hsettings : ∀ s : Settings α, (interpret s p).heard.settings = s.sampling := by
    intro s
    rw [heard_interpret]
    rfl
  constructor
  case clock => rfl
  case dwellSamples =>
    show (interpret s' p).heard.settings.dwellSamples = (interpret s p).heard.settings.dwellSamples
    rw [hsettings, hsettings, h.dwellSamples]
  case dwellInterval =>
    show (interpret s' p).heard.settings.dwellInterval =
      (interpret s p).heard.settings.dwellInterval
    rw [hsettings, hsettings, h.dwellInterval]
  case timing =>
    -- a span is opened at time zero, with the line and the number of the move
    have hspans : ∀ s : Settings α, (interpret s p).heard.spans.map Span.timing =
        ((interpret s p).path.toList.map fun m =>
          (m.line, m.index, (0.0 : α), (0.0 : α))).toArray := by
      intro s
      rw [spans_interpret, List.map_toArray, List.map_map]
      rfl
    show (interpret s' p).heard.spans.map Span.timing = (interpret s p).heard.spans.map Span.timing
    rw [hspans, hspans, path_interpret_congr h]

end Sampler

/-! ## Simulations -/

/-- Two simulations with the same plan, which runs at the same times. -/
structure Simulation.RunsAlike (sim sim' : Simulation α) : Prop where
  chains : sim'.chains = sim.chains
  problems : sim'.problems = sim.problems
  totalTime : sim'.totalTime = sim.totalTime
  timing : sim'.track.spans.map Span.timing = sim.track.spans.map Span.timing
  lineAt : ∀ time, sim'.track.lineAt? time = sim.track.lineAt? time

/-- Simulations under settings that plan alike run alike. -/
theorem runsAlike_simulate {s s' : Settings α} (h : s.PlansAlike s') {p : Program}
    {sim sim' : Simulation α} (hsim : simulate s p = .ok sim) (hsim' : simulate s' p = .ok sim') :
    sim.RunsAlike sim' := by
  have hplans := plans_simulate hsim
  have hplans' := plans_simulate hsim'
  rw [unplanned_congr h] at hplans'
  have hchains : sim'.chains = sim.chains := plans_unique hplans' hplans
  obtain ⟨planned, sampler, hrun, rfl⟩ := simulate_eq_ok.1 hsim
  obtain ⟨planned', sampler', hrun', rfl⟩ := simulate_eq_ok.1 hsim'
  obtain rfl : planned' = planned := hchains
  have hstep := (Sampler.inStep_start h p).sampleChains (planAndSample_eq_ok.1 hrun).2
    (planAndSample_eq_ok.1 hrun').2
  have htiming : sampler'.track.close.spans.map Span.timing =
      sampler.track.close.spans.map Span.timing := by
    rw [Track.close_spans, Track.close_spans, hstep.timing]
  constructor
  case chains => rfl
  case problems =>
    show (interpret s' p).problems.toList = (interpret s p).problems.toList
    rw [(isImage_interpret h p).problems_eq]
  case totalTime => exact hstep.clock
  case timing => exact htiming
  case lineAt => exact Track.lineAt?_congr htiming

/-- A program is simulated under accepted settings exactly where it is under others that plan
alike. -/
theorem exists_simulate_congr [Absorbing α] {s s' : Settings α} (h : s.PlansAlike s')
    (hvalid : s.validate = .ok ()) (p : Program) :
    (∃ sim, simulate s p = .ok sim) ↔ ∃ sim, simulate s' p = .ok sim := by
  rw [exists_simulate_iff, exists_simulate_iff, unplanned_congr h]
  exact forall₂_congr fun c hc => Chain.isDefined_congr (isLimited_unplanned hvalid p c hc) _ _

/-! ## Single precision -/

/-- In single precision, under accepted settings that plan alike: a program is simulated under both
or under neither, with the same chains, problems and times, and the same line at every time. -/
theorem simulate_resolution {s s' : Settings Float32} (h : s.PlansAlike s')
    (hvalid : s.validate = .ok ()) (p : Program) :
    ((∃ sim, simulate s p = .ok sim) ↔ ∃ sim, simulate s' p = .ok sim) ∧
      ∀ sim sim', simulate s p = .ok sim → simulate s' p = .ok sim' → sim.RunsAlike sim' :=
  ⟨exists_simulate_congr h hvalid p, fun _ _ => runsAlike_simulate h⟩

/-- The default settings with a coarser sampling and another display. -/
def coarseSettings : Settings Float32 :=
  { (Settings.default : Settings Float32) with
    sampling := { (SamplingSettings.default : SamplingSettings Float32) with
      lineSteps := 1, arcTolerance := 0.5, maxArcSteps := 8, maxRunPoints := 2 }
    display := ⟨.yUp, .imperial, .inPerMin⟩ }

/-- Two lines around a corner are sampled in other places, but they run alike. -/
theorem simulate_resolution_coarse :
    (Settings.default : Settings Float32).PlansAlike coarseSettings ∧
      (Settings.default : Settings Float32).validate = .ok () ∧
      coarseSettings.validate = .ok () ∧
      ∃ sim sim' : Simulation Float32,
        simulate Settings.default [.ofPairs 1 [('X', 1.0)], .ofPairs 2 [('Y', 1.0)]] = .ok sim ∧
        simulate coarseSettings [.ofPairs 1 [('X', 1.0)], .ofPairs 2 [('Y', 1.0)]] = .ok sim' ∧
        sim.RunsAlike sim' ∧ sim.sampleCount ≠ sim'.sampleCount := by
  have halike : (Settings.default : Settings Float32).PlansAlike coarseSettings :=
    ⟨rfl, rfl, rfl, rfl⟩
  have hvalid : (Settings.default : Settings Float32).validate = .ok () := by decide +kernel
  have hcounts : (simulate (Settings.default : Settings Float32)
      [.ofPairs 1 [('X', 1.0)], .ofPairs 2 [('Y', 1.0)]]).toOption.map (·.sampleCount) ≠
      (simulate coarseSettings
        [.ofPairs 1 [('X', 1.0)], .ofPairs 2 [('Y', 1.0)]]).toOption.map (·.sampleCount) := by
    decide +kernel
  obtain ⟨hexists, hruns⟩ := simulate_resolution halike hvalid
    [.ofPairs 1 [('X', 1.0)], .ofPairs 2 [('Y', 1.0)]]
  obtain ⟨sim, hsim⟩ := exists_simulate_corner
  obtain ⟨sim', hsim'⟩ := hexists.1 ⟨sim, hsim⟩
  rw [hsim, hsim'] at hcounts
  exact ⟨halike, hvalid, by decide +kernel, sim, sim', hsim, hsim', hruns sim sim' hsim hsim',
    fun heq => hcounts (congrArg some heq)⟩

end Toolpath
