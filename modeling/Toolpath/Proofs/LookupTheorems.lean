import Toolpath.Proofs.ArrivalTheorems
import Toolpath.Proofs.ChronologyTheorems
import Toolpath.Proofs.PolylineTheorems

/-!
# Looking up what happens at a time

One lookup searches the spans for the line that runs at a time, another one the runs of samples for
the place. Over the reals they agree on the moves: at a time inside the span of a move the line is
that of the move, and the place is between two vertices of the span (`Simulation.IsSynchronous`).

* A span starts when its first vertex is passed and ends when its last one is
  (`Span.IsPunctual`). So the time inside it is between two of its vertices
  (`Span.IsPunctual.exists_encloses`).
* The sampler keeps its spans punctual, because its last sample is always as late as its clock
  (`Sampler.IsPunctual`), and its runs packed.
-/

namespace Toolpath

open Scalar

/-! ## Inside a span -/

/-- A span starts when its first vertex is passed and ends when its last one is. -/
structure Span.IsPunctual {α : Type} (span : Span α) (samples : List (Sample α)) : Prop where
  start_eq : samples[span.firstVertex]?.map (·.time) = some span.startTime
  end_eq : samples[span.endVertex - 1]?.map (·.time) = some span.endTime

/-- Two vertices of a span that follow one another, the first of them passed before a time and the
second not. -/
structure Span.Encloses (span : Span ℝ) (samples : List (Sample ℝ)) (time : ℝ) (k : ℕ)
    (before after : Sample ℝ) : Prop where
  first_le : span.firstVertex ≤ k
  lt_end : k + 1 < span.endVertex
  before_eq : samples[k]? = some before
  after_eq : samples[k + 1]? = some after
  before_lt : before.time < time
  le_after : time ≤ after.time

namespace Span.IsPunctual

/-- More samples do not matter. -/
theorem append {α : Type} {span : Span α} {samples : List (Sample α)} (h : span.IsPunctual samples)
    (more : List (Sample α)) : span.IsPunctual (samples ++ more) := by
  have hkeep : ∀ (i : ℕ) (time : α), samples[i]?.map (·.time) = some time →
      (samples ++ more)[i]?.map (·.time) = some time := by
    intro i time hi
    obtain ⟨x, hx, -⟩ := Option.map_eq_some_iff.1 hi
    rwa [List.getElem?_append_left (List.getElem?_eq_some_iff.1 hx).1]
  exact ⟨hkeep _ _ h.start_eq, hkeep _ _ h.end_eq⟩

/-- From the last of some samples to the last of those behind, a span is punctual if it starts and
ends with them. -/
theorem of_append {α : Type} {span : Span α} {samples new : List (Sample α)} {first last : Sample α}
    (hfirst : span.firstVertex + 1 = samples.length)
    (hend : span.endVertex = (samples ++ new).length) (hsample : samples.getLast? = some first)
    (hsample' : (samples ++ new).getLast? = some last) (hstart : first.time = span.startTime)
    (hstop : last.time = span.endTime) : span.IsPunctual (samples ++ new) := by
  constructor
  case start_eq =>
    have hindex : span.firstVertex = samples.length - 1 := by omega
    rw [List.getElem?_append_left (by omega), hindex, ← List.getLast?_eq_getElem?, hsample,
      Option.map_some, hstart]
  case end_eq => rw [hend, ← List.getLast?_eq_getElem?, hsample', Option.map_some, hstop]

/-- A time inside a span is between two of its vertices, and so is the place. -/
theorem exists_encloses {span : Span ℝ} {samples : List (Sample ℝ)} {time : ℝ}
    (h : span.IsPunctual samples) (hordered : IsOrdered samples) (hstart : span.startTime < time)
    (hend : time < span.endTime) :
    ∃ k before after, span.Encloses samples time k before after ∧
      placeAt? samples time = some (before.placeTowards after time) := by
  obtain ⟨early, late, hcut⟩ := exists_isCut hordered time
  obtain ⟨first, hfirst, hfirst_time⟩ := Option.map_eq_some_iff.1 h.start_eq
  obtain ⟨last, hlast, hlast_time⟩ := Option.map_eq_some_iff.1 h.end_eq
  -- the cut lies behind the first vertex, but not behind the last one
  have hbehind : span.firstVertex < early.length := by
    rw [hcut.lt_length_iff hfirst, hfirst_time]
    exact hstart
  have hahead : ¬ span.endVertex - 1 < early.length := by
    rw [hcut.lt_length_iff hlast, hlast_time]
    exact lt_asymm hend
  have hlength : span.endVertex - 1 < early.length + late.length := by
    rw [← List.length_append, ← hcut.eq_append]
    exact (List.getElem?_eq_some_iff.1 hlast).1
  rcases List.eq_nil_or_concat early with rfl | ⟨init, before, rfl⟩
  · exact absurd hbehind (Nat.not_lt_zero _)
  rcases late with _ | ⟨after, rest⟩
  · exact absurd hlength hahead
  rw [List.concat_eq_append, List.length_append, List.length_singleton] at hbehind hahead
  refine ⟨init.length, before, after, ?_, ?_⟩
  · constructor
    case first_le => omega
    case lt_end => omega
    case before_eq =>
      rw [hcut.eq_append]
      simp
    case after_eq =>
      rw [hcut.eq_append]
      simp
    case before_lt => exact hcut.early_lt before (by simp)
    case le_after => exact not_lt.1 (hcut.late_not_lt after List.mem_cons_self)
  · rw [hcut.placeAt?_eq, List.concat_eq_append, List.getLast?_concat, List.head?_cons]
    rfl

end Span.IsPunctual

namespace Track

variable {α : Type}

/-- A sample that is added is the last one. -/
theorem Linked.getLast?_add {t : Track α} (h : t.Linked) (s : Sample α) (pace : Pace) :
    (t.add s pace).1.samples.getLast? = some s := by
  obtain ⟨copy, -, hadd⟩ := h.samples_add s pace
  rw [hadd, List.getLast?_concat]

/-- The vertices are the points of the samples. -/
theorem map_fst_vertices (t : Track α) :
    t.vertices.map Prod.fst = t.closedSamples.map (·.point) := by
  simp only [vertices, closedSamples, List.map_flatMap, List.map_map]
  rfl

/-- Spans do not matter to the runs. -/
theorem IsPacked.withSpans {t : Track α} (h : t.IsPacked) (spans : Array (Span α)) :
    { t with spans }.IsPacked :=
  ⟨⟨h.linked.seed_eq, h.linked.samples_ne, h.linked.closedCount_eq⟩, h.size_le, h.open_le,
    h.follows⟩

theorem IsPacked.mark {t : Track α} (h : t.IsPacked) (index firstVertex endVertex : ℕ)
    (startTime endTime : α) :
    (t.mark index firstVertex endVertex startTime endTime).IsPacked := by
  unfold Track.mark
  split
  · exact h
  · split_ifs
    · exact h.withSpans _
    · exact h

end Track

/-! ## Sampling -/

/-- The last step goes all the way. -/
theorem Move.stepRatio_self {n : ℕ} (hn : 0 < n) : (stepRatio n n : ℝ) = 1 :=
  div_self (Nat.cast_ne_zero.2 hn.ne')

namespace Sampler

section Packed

variable {α : Type} [Scalar α] {s s' : Sampler α}

/-- Runs of at least two samples, packed. -/
structure IsPacked {α : Type} (s : Sampler α) : Prop where
  track : s.track.IsPacked
  two_le : 2 ≤ s.track.settings.maxRunPoints

theorem IsPacked.push (h : s.IsPacked) (x : Sample α) (pace : Pace) :
    (s.push x pace).1.IsPacked := by
  refine ⟨h.track.add h.two_le x pace, ?_⟩
  rw [(onward_push s x pace).settings]
  exact h.two_le

theorem IsPacked.sampleMove (h : s.IsPacked) {m : Move α} (hs' : s.sampleMove m = .ok s') :
    s'.IsPacked := by
  obtain ⟨out, hout, rfl⟩ := sampleMove_eq_ok.1 hs'
  have hopened : (s.opened m).IsPacked := by
    unfold opened
    split_ifs
    · exact h.push _ m.pace
    · exact h
  have hsteps : out.1.IsPacked := by
    refine foldlM_keeps (fun u => u.1.IsPacked) ?_ hopened hout
    intro u j u' hu hstep
    obtain ⟨passage, -, rfl⟩ := pushStep_eq_ok.1 hstep
    exact hu.push _ m.pace
  refine ⟨hsteps.track.mark _ _ _ _ _, ?_⟩
  rw [Track.mark_settings]
  exact hsteps.two_le

theorem IsPacked.dwell (h : s.IsPacked) (point : Vec3 α) (pace : Pace) :
    (s.dwell point pace).IsPacked := by
  unfold Sampler.dwell
  induction List.range s.track.settings.dwellSamples generalizing s with
  | nil => exact h
  | cons _ rest ih =>
    have hlater : { s with clock := s.clock + s.track.settings.dwellInterval }.IsPacked :=
      ⟨h.track, h.two_le⟩
    exact ih (hlater.push _ pace)

end Packed

/-- What a punctual span is it remains. -/
theorem Extends.isPunctual {α : Type} {done : ℕ} {s s' : Sampler α} (h : s.Extends done s') {i : ℕ}
    (hi : i < done) {span : Span α} (hspan : s.track.spans[i]? = some span)
    (hpunctual : span.IsPunctual s.track.samples) :
    s'.track.spans[i]? = some span ∧ span.IsPunctual s'.track.samples := by
  obtain ⟨new, hnew⟩ := h.entries
  refine ⟨(h.spans i hi).trans hspan, ?_⟩
  rw [← Track.map_sample_entries, hnew, List.map_append, Track.map_sample_entries]
  exact hpunctual.append _

/-- The last sample is as late as the clock, and of all moves those done so far have punctual spans
that last as long as they do. -/
structure IsPunctual (moves : List (Move ℝ)) (done : ℕ) (s : Sampler ℝ) : Prop where
  indexed : s.IsIndexed moves.length done
  ends : s.track.EndsOwn
  last_time : ∀ last, s.track.samples.getLast? = some last → last.time = s.clock
  span : ∀ i < done, ∃ span m, s.track.spans[i]? = some span ∧ moves[i]? = some m ∧
    span.IsPunctual s.track.samples ∧ span.endTime = span.startTime + m.profile.duration

/-- The steps of a move end with a sample at the time of the last step. -/
theorem last_pushSteps {m : Move ℝ} {startTime : ℝ} {steps n vertex : ℕ} {s : Sampler ℝ}
    {out : Sampler ℝ × ℕ} (h : s.track.EndsOwn)
    (hout : (List.range (n + 1)).foldlM (fun (u, _) j => pushStep m startTime steps (j + 1) u)
      (s, vertex) = .ok out) :
    ∃ last, out.1.track.samples.getLast? = some last ∧
      last.time = startTime + m.timeAt (Move.stepRatio (n + 1) steps) := by
  rw [List.range_succ, List.foldlM_append, bind_eq_ok] at hout
  obtain ⟨u, hu, hlast⟩ := hout
  rw [List.foldlM_cons, bind_eq_ok] at hlast
  obtain ⟨v, hv, hnil⟩ := hlast
  cases hnil
  obtain ⟨passage, hpassage, rfl⟩ := pushStep_eq_ok.1 hv
  have hlinked := (adds_pushSteps h hu).ends.linked
  exact ⟨_, hlinked.getLast?_add _ m.pace, by rw [Move.time_of_passageAt hpassage]⟩

namespace IsPunctual

variable {moves : List (Move ℝ)} {done : ℕ} {s s' : Sampler ℝ}

/-- A move starts from a sample that is as late as the clock. -/
theorem last_opened (h : s.IsPunctual moves done) (m : Move ℝ) :
    ∃ first, (s.opened m).track.samples.getLast? = some first ∧ first.time = s.clock := by
  unfold opened
  by_cases hempty : s.track.isEmpty = true
  · rw [if_pos hempty]
    exact ⟨_, h.ends.linked.getLast?_add _ m.pace, rfl⟩
  · rw [if_neg hempty]
    have hne : s.track.samples ≠ [] := fun hnil => hempty (h.ends.linked.isEmpty_iff.2 hnil)
    obtain ⟨first, hfirst⟩ := Option.ne_none_iff_exists'.1 (mt List.getLast?_eq_none_iff.1 hne)
    exact ⟨first, hfirst, h.last_time first hfirst⟩

/-- A move that arrives on time ends with a sample that is as late as the clock. -/
theorem last_sampleMove (h : s.IsPunctual moves done) {m : Move ℝ}
    (harrives : m.Arrives) (hs' : s.sampleMove m = .ok s') :
    ∃ last, s'.track.samples.getLast? = some last ∧ last.time = s'.clock := by
  obtain ⟨hopened, -, -⟩ := endsOwn_opened h.ends m
  obtain ⟨out, hout, rfl⟩ := sampleMove_eq_ok.1 hs'
  have hpos := m.stepCount_pos s.track.settings
  obtain ⟨n, hn⟩ : ∃ n, m.stepCount s.track.settings = n + 1 := ⟨_, (Nat.succ_pred hpos.ne').symm⟩
  rw [hn] at hout
  obtain ⟨last, hlast, htime⟩ := last_pushSteps hopened hout
  rw [Move.stepRatio_self n.succ_pos, harrives] at htime
  refine ⟨last, ?_, htime⟩
  rw [Track.mark_samples]
  exact hlast

/-- The span of a move is punctual once the move has been sampled. -/
theorem sampleMove (h : s.IsPunctual moves done) {m : Move ℝ}
    (harrives : m.Arrives) (hmove : moves[done]? = some m) (hindex : m.index = done)
    (hs' : s.sampleMove m = .ok s') : s'.IsPunctual moves (done + 1) := by
  have hadds := adds_sampleMove h.ends hs'
  have hextends := extends_sampleMove h.ends hs'
  have hdone : done < moves.length := (List.getElem?_eq_some_iff.1 hmove).1
  obtain ⟨first, hfirst, hfirst_time⟩ := h.last_opened m
  obtain ⟨last, hlast, hlast_time⟩ := h.last_sampleMove harrives hs'
  constructor
  case indexed => exact h.indexed.sampleMove hs' hindex hdone
  case ends => exact hadds.ends
  case last_time =>
    intro x hx
    cases hlast.symm.trans hx
    exact hlast_time
  case span =>
    intro i hi
    rcases Nat.lt_succ_iff_lt_or_eq.1 hi with hlt | rfl
    · obtain ⟨span, n, hspan, hn, hpunctual, hlasts⟩ := h.span i hlt
      obtain ⟨hspan', hpunctual'⟩ := hextends.isPunctual (by omega) hspan hpunctual
      exact ⟨span, n, hspan', hn, hpunctual', hlasts⟩
    · -- its samples start behind the one at the clock before and end with one at the clock behind
      obtain ⟨span, hspan, hbefore, hbehind, hstart, hstop, hclock⟩ :=
        h.indexed.noted_sampleMove hs' hindex hdone
      obtain ⟨new, hnew, -⟩ := hadds.entries
      have hsamples : s'.track.samples = (s.opened m).track.samples ++ new.map (·.sample) := by
        rw [← Track.map_sample_entries, hnew, List.map_append, Track.map_sample_entries]
      refine ⟨span, m, hspan, hmove, ?_, by rw [hstart, hstop, hclock]⟩
      rw [hsamples] at hbehind hlast ⊢
      exact .of_append hbefore hbehind hfirst hlast (hfirst_time.trans hstart.symm)
        (hlast_time.trans hstop.symm)

/-- The samples that mark a stop move with the clock. -/
theorem last_dwell (hlinked : s.track.Linked)
    (hlast : ∀ last, s.track.samples.getLast? = some last → last.time = s.clock) (point : Vec3 ℝ)
    (pace : Pace) : ∀ last, (s.dwell point pace).track.samples.getLast? = some last →
      last.time = (s.dwell point pace).clock := by
  unfold Sampler.dwell
  induction List.range s.track.settings.dwellSamples generalizing s with
  | nil => exact hlast
  | cons _ rest ih =>
    apply ih (hlinked.add _ pace)
    intro last hx
    cases (hlinked.getLast?_add _ pace).symm.trans hx
    rfl

theorem dwell (h : s.IsPunctual moves done) (point : Vec3 ℝ) (pace : Pace) :
    (s.dwell point pace).IsPunctual moves done where
  indexed := h.indexed.dwell point pace
  ends := (adds_dwell h.ends point pace).ends
  last_time := last_dwell h.ends.linked h.last_time point pace
  span i hi := by
    obtain ⟨span, m, hspan, hm, hpunctual, hlasts⟩ := h.span i hi
    obtain ⟨hspan', hpunctual'⟩ :=
      (extends_dwell h.ends done point pace).isPunctual hi hspan hpunctual
    exact ⟨span, m, hspan', hm, hpunctual', hlasts⟩

end IsPunctual

end Sampler

/-! ## Simulations -/

/-- The moves of planned chains arrive on time, and take time unless they are too short. -/
theorem planned_unplanned {s : Settings ℝ} (h : s.validate = .ok ()) {p : Program}
    {planned : List (Chain ℝ)}
    (hplans : List.Forall₂ (fun c plan => c.plan = .ok plan) (unplanned s p) planned) :
    ∀ m ∈ planned.flatMap Chain.moves, m.Arrives ∧
      (minPlannedLength < m.length → 0 < m.profile.duration) := by
  intro m hm
  obtain ⟨plan, hplan, hm⟩ := List.mem_flatMap.1 hm
  obtain ⟨i, hi, rfl⟩ := List.mem_iff_getElem.1 hplan
  have hi' : i < (unplanned s p).length := by rw [hplans.length_eq]; exact hi
  have hown : (unplanned s p)[i].plan = .ok planned[i] := hplans.get hi' hi
  have hunderway := isUnderway_unplanned h p _ (List.getElem_mem hi')
  exact ⟨arrives_plan hunderway hown m hm, duration_pos_plan hunderway hown m hm⟩

/-- The track that interpretation leaves behind has nothing on it that could be late. -/
theorem isPunctual_start (s : Settings ℝ) (p : Program) {moves : List (Move ℝ)}
    (hlength : moves.length = (interpret s p).path.size) :
    (Sampler.start (interpret s p).heard).IsPunctual moves 0 where
  indexed := by
    rw [hlength]
    exact isIndexed_start s p
  ends := (endsOwn_start s p).1
  last_time last hlast := by
    have hnil : (Sampler.start (interpret s p).heard).track.samples = [] :=
      (linked_interpret s p).2
    rw [hnil] at hlast
    contradiction
  span i hi := absurd hi (Nat.not_lt_zero i)

theorem isPacked_start {α : Type} [Scalar α] {s : Settings α} (h : s.validate = .ok ())
    (p : Program) : (Sampler.start (interpret s p).heard).IsPacked := by
  have hheard : (interpret s p).heard.IsPacked := by
    rw [heard_interpret]
    exact (Track.IsPacked.empty s.sampling).withSpans _
  refine ⟨hheard, ?_⟩
  rw [(endsOwn_start s p).2.2]
  exact (Settings.validate_eq_ok.1 h).maxRunPoints

/-- Inside the spans of a simulation the two lookups agree. -/
structure Simulation.IsSynchronous (sim : Simulation ℝ) : Prop where
  /-- The vertices are the points of the samples. -/
  points_eq : sim.track.vertices.map Prod.fst = sim.track.closedSamples.map (·.point)
  /-- Every move has its span. -/
  size_eq : sim.track.spans.size = sim.moves.length
  /-- The span lasts as long as the move, which is some time unless the move is too short. -/
  lasts : ∀ (i : ℕ) (_ : i < sim.track.spans.size) (_ : i < sim.moves.length),
    sim.track.spans[i].endTime = sim.track.spans[i].startTime + sim.moves[i].profile.duration ∧
      (minPlannedLength < sim.moves[i].length → 0 < sim.moves[i].profile.duration)
  /-- The line inside a span is that of its move. -/
  line_eq : ∀ (i : ℕ) (_ : i < sim.track.spans.size) (_ : i < sim.moves.length) (time : ℝ),
    sim.track.spans[i].startTime < time → time < sim.track.spans[i].endTime →
    sim.track.lineAt? time = some sim.moves[i].line
  /-- The place is on the way between the two vertices of the span around the time. -/
  place_eq : ∀ (i : ℕ) (_ : i < sim.track.spans.size) (time : ℝ),
    sim.track.spans[i].startTime < time → time < sim.track.spans[i].endTime →
    ∃ k before after, sim.track.spans[i].Encloses sim.track.closedSamples time k before after ∧
      sim.track.positionAt? time = some (before.placeTowards after time)

/-- The line inside a span is that of its move, because the span before starts earlier and the one
behind starts when it is over. -/
theorem Simulation.IsChronological.lineAt?_inside {sim : Simulation ℝ} (h : sim.IsChronological)
    (hbefore : ∀ (i j : ℕ) (_ : i < sim.track.spans.size) (_ : j < sim.track.spans.size), i < j →
      sim.track.spans[i].endTime ≤ sim.track.spans[j].startTime)
    {i : ℕ} (hi : i < sim.track.spans.size) (hi' : i < sim.moves.length) {time : ℝ}
    (hstart : sim.track.spans[i].startTime < time) (hend : time < sim.track.spans[i].endTime) :
    sim.track.lineAt? time = some sim.moves[i].line := by
  have hne : sim.moves ≠ [] := List.length_pos_iff.1 (by omega)
  obtain ⟨j, hj, hj', hstarted, hlater, hline⟩ := h.line_some hne time
  rcases Nat.lt_trichotomy i j with hlt | rfl | hgt
  · -- a later span starts when this one is over
    have hover := hbefore i j hi hj hlt
    have hle := hstarted.resolve_left (by omega)
    linarith
  · exact hline
  · exact absurd hstart.le (hlater i hi hgt)

/-- What a sampler has kept in time, punctual and packed is synchronous once the last run is
closed. -/
theorem Sampler.IsPunctual.isSynchronous {sim : Simulation ℝ} {s : Sampler ℝ}
    (h : s.IsPunctual sim.moves sim.moves.length) (hordered : sim.IsChronological)
    (htimely : s.IsTimely sim.moves.length) (hpacked : s.IsPacked)
    (htrack : sim.track = s.track.close)
    (hmoves : ∀ m ∈ sim.moves, minPlannedLength < m.length → 0 < m.profile.duration) :
    sim.IsSynchronous := by
  have hspans : sim.track.spans = s.track.spans := by rw [htrack, Track.close_spans]
  have hsamples : sim.track.closedSamples = s.track.samples := by rw [htrack, Track.samples]
  have hsize := hordered.size_eq
  constructor
  case points_eq => exact sim.track.map_fst_vertices
  case size_eq => exact hsize
  case lasts =>
    simp only [hspans]
    intro i hi hi'
    obtain ⟨span, m, hspan, hm, -, hlasts⟩ := h.span i hi'
    obtain ⟨_, rfl⟩ := Array.getElem?_eq_some_iff.1 hspan
    obtain ⟨_, rfl⟩ := List.getElem?_eq_some_iff.1 hm
    exact ⟨hlasts, hmoves _ (List.getElem_mem hi')⟩
  case line_eq =>
    intro i hi hi' time hstart hend
    refine hordered.lineAt?_inside ?_ hi hi' hstart hend
    simp only [hspans] at hsize ⊢
    exact fun i j hi hj hij => htimely.span_before hij (hsize ▸ hj)
      (Array.getElem?_eq_getElem hi) (Array.getElem?_eq_getElem hj)
  case place_eq =>
    intro i hi time hstart hend
    obtain ⟨span, -, hspan, -, hpunctual, -⟩ := h.span i (hsize ▸ hi)
    rw [← hspans] at hspan
    obtain ⟨_, rfl⟩ := Array.getElem?_eq_some_iff.1 hspan
    have hsorted : IsOrdered s.track.samples := htimely.timeline.sorted
    -- the bisection over runs finds what a search through all samples finds
    have hlookup : sim.track.positionAt? time = placeAt? s.track.samples time := by
      rw [htrack]
      exact Track.positionAt?_eq_placeAt? (hpacked.track.close hpacked.two_le) hsorted
        (fun _ _ => le_rfl) le_rfl
    rw [hlookup, hsamples]
    exact hpunctual.exists_encloses hsorted hstart hend

/-- Under accepted settings every program is simulated, and inside the spans of the simulation the
two lookups agree. -/
theorem simulate_isSynchronous (s : Settings ℝ) (p : Program) (h : s.validate = .ok ()) :
    ∃ sim, simulate s p = .ok sim ∧ sim.IsSynchronous := by
  obtain ⟨sim, hsim⟩ := exists_simulate_real h p
  obtain ⟨sampler, hsampled, htrack, -, htimely⟩ := isTimely_simulate h hsim sim.isFinite_real
  have hplans := plans_simulate hsim
  have hplanned := planned_unplanned h hplans
  have hnumbered : IsNumbered 0 sim.moves :=
    (isNumbered_interpret s p).replanned (replanned_plans hplans)
  have hbound : 0 + sim.moves.length ≤ sim.moves.length := (Nat.zero_add _).le
  have hown : ∀ m ∈ sim.moves, m.Arrives ∧ sim.moves[m.index]? = some m := by
    intro m hm
    obtain ⟨harrives, -⟩ := hplanned m hm
    obtain ⟨i, hi, rfl⟩ := List.mem_iff_getElem.1 hm
    refine ⟨harrives, ?_⟩
    rw [hnumbered i hi, Nat.zero_add, List.getElem?_eq_getElem hi]
  -- the moves of the result are those that the sampler has gone through
  have hpunctual : sampler.IsPunctual sim.moves (0 + sim.moves.length) := by
    refine Sampler.keeps_sampleChains (fun done u => u.IsPunctual sim.moves done) ?_ ?_
      (isPunctual_start s p (follows_simulate hsim).length_eq) hown hnumbered hbound hsampled
    · rintro done u m u' hu ⟨harrives, hmove⟩ rfl - hu'
      exact hu.sampleMove harrives hmove rfl hu'
    · exact fun point pace _ hu => hu.dwell point pace
  have hpacked : sampler.IsPacked :=
    Sampler.keeps_sampleChains (fun _ u => u.IsPacked)
      (fun hu _ _ _ hu' => hu.sampleMove hu') (fun point pace _ hu => hu.dwell point pace)
      (isPacked_start h p) hown hnumbered hbound hsampled
  rw [Nat.zero_add] at hpunctual
  have hordered := isChronological_simulate h hsim sim.isFinite_real
  exact ⟨sim, hsim, hpunctual.isSynchronous hordered htimely hpacked htrack
    fun m hm => (hplanned m hm).2⟩

/-- A straight line under the default settings is synchronous, and it takes time. -/
theorem simulate_isSynchronous_line :
    (Settings.default : Settings ℝ).validate = .ok () ∧
      ∃ sim span, simulate (Settings.default : Settings ℝ) unitLine = .ok sim ∧
        sim.IsSynchronous ∧ sim.track.spans[0]? = some span ∧ span.startTime < span.endTime := by
  have hvalid : (Settings.default : Settings ℝ).validate = .ok () :=
    Settings.validate_eq_ok.2 Settings.isValid_default
  obtain ⟨sim, hsim, hsynchronous⟩ := simulate_isSynchronous Settings.default unitLine hvalid
  obtain ⟨drawn, hpath, hcourse⟩ := path_unitLine
  obtain ⟨-, -, -, hreplanned⟩ := sampled_simulate hsim
  rw [hpath] at hreplanned
  obtain ⟨m, moves, hm, hnil, hmoves⟩ := List.forall₂_cons_left_iff.1 hreplanned
  have hlength : m.length = 1 := by
    rw [hm]
    exact hcourse
  have hi' : 0 < sim.moves.length := by rw [hmoves]; exact Nat.succ_pos _
  have hi : 0 < sim.track.spans.size := by rw [hsynchronous.size_eq]; exact hi'
  obtain ⟨hlasts, hpos⟩ := hsynchronous.lasts 0 hi hi'
  have htime : (0 : ℝ) < sim.moves[0].profile.duration := by
    apply hpos
    simp only [hmoves, List.getElem_cons_zero, hlength]
    norm_num [minPlannedLength]
  refine ⟨hvalid, sim, sim.track.spans[0], hsim, hsynchronous, Array.getElem?_eq_getElem hi, ?_⟩
  linarith

end Toolpath
