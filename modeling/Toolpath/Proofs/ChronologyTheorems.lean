import Toolpath.Proofs.LayoutTheorems
import Toolpath.Proofs.OutcomeTheorems
import Toolpath.Proofs.PathTheorems
import Toolpath.Proofs.SingleIsotoneTheorems
import Toolpath.Proofs.TimingTheorems

/-!
# The chronology of a simulation

The result of a simulation is in order of time (`Simulation.IsChronological`): the samples on the
track, the spans of the moves, and the lookup of the line that runs at a time. All it takes is
arithmetic that keeps the order, and a result that is finite (`Simulation.IsFinite`). So it holds
over the reals, where all results are, and in single precision.

* The times on a track start at zero, never decrease and never run ahead of the clock
  (`IsTimeline`). The steps of a move do not fall behind one another, nor behind the end of the
  move (`Move.Awaits`).
* The spans of the moves done so far follow one another up to the clock (`Sampler.IsTimely`). One
  action of the sampler after the other keeps this (`Sampler.KeepsTime`).
* A bisection over spans that start one after the other finds the last one that has started
  (`Track.lineAt?_eq`).
-/

namespace Toolpath

open Scalar

variable {α : Type} [Scalar α]

/-! ## Times on a track -/

/-- Times that start at zero, never decrease, and are none later than `now`. -/
structure IsTimeline (samples : List (Sample α)) (now : α) : Prop where
  starts : ∀ x, samples.head? = some x → x.time = 0.0
  sorted : samples.Pairwise (·.time ≤ ·.time)
  le_now : ∀ x ∈ samples, x.time ≤ now

theorem isTimeline_nil (now : α) : IsTimeline [] now :=
  ⟨nofun, .nil, nofun⟩

namespace IsTimeline

variable [NumberOrder α] {samples : List (Sample α)} {now later : α}

/-- A timeline up to some time is one up to any later time. -/
theorem mono (h : IsTimeline samples now) (hle : now ≤ later) : IsTimeline samples later :=
  ⟨h.starts, h.sorted, fun x hx => num_le_trans (h.le_now x hx) hle⟩

/-- It is as late as the last sample. -/
theorem at_last (h : IsTimeline samples now) {last : Sample α}
    (hlast : samples.getLast? = some last) : IsTimeline samples last.time := by
  obtain ⟨init, hinit⟩ := List.getLast?_eq_some_iff.1 hlast
  have hsorted := h.sorted
  rw [hinit, List.pairwise_append] at hsorted
  refine ⟨h.starts, h.sorted, ?_⟩
  intro x hx
  rw [hinit, List.mem_append, List.mem_singleton] at hx
  rcases hx with hx | rfl
  · exact hsorted.2.2 x hx last (List.mem_singleton.2 rfl)
  · exact number_left (h.le_now x (List.mem_of_getLast? hlast))

/-- A sample that is not earlier than now may follow. -/
theorem append (h : IsTimeline samples now) {s : Sample α} (hnow : now ≤ s.time)
    (hstart : samples = [] → s.time = 0.0) : IsTimeline (samples ++ [s]) s.time := by
  constructor
  case starts =>
    intro x hx
    by_cases hnil : samples = []
    · rw [hnil] at hx
      cases hx
      exact hstart hnil
    · obtain ⟨first, rest, rfl⟩ := List.exists_cons_of_ne_nil hnil
      exact h.starts x hx
  case sorted =>
    rw [List.pairwise_append]
    refine ⟨h.sorted, List.pairwise_singleton _ _, ?_⟩
    intro x hx y hy
    rw [List.mem_singleton.1 hy]
    exact num_le_trans (h.le_now x hx) hnow
  case le_now =>
    intro x hx
    rw [List.mem_append, List.mem_singleton] at hx
    rcases hx with hx | rfl
    · exact num_le_trans (h.le_now x hx) hnow
    · exact number_right hnow

/-- So may one that is added to a track, because the copy that starts a new run is as late as the
sample it copies. -/
theorem add {t : Track α} (h : IsTimeline t.samples now) (hlinked : t.Linked) {s : Sample α}
    (hnow : now ≤ s.time) (hstart : t.samples = [] → s.time = 0.0) (pace : Pace) :
    IsTimeline (t.add s pace).1.samples s.time := by
  obtain ⟨copy, hcopy, hadd⟩ := hlinked.samples_add s pace
  rw [hadd]
  cases copy with
  | none =>
    rw [Option.toList_none, List.append_nil]
    exact h.append hnow hstart
  | some last =>
    have hlast := hcopy last rfl
    have hmem : last ∈ t.samples := List.mem_of_getLast? hlast
    have hne : t.samples ≠ [] := List.ne_nil_of_mem hmem
    have hle := h.le_now last hmem
    -- the copy is appended first, then the sample itself
    have hcopied := (h.at_last hlast).append (number_left hle) fun hnil => absurd hnil hne
    exact hcopied.append (num_le_trans hle hnow) fun hnil =>
      absurd hnil (List.append_ne_nil_of_left_ne_nil hne _)

end IsTimeline

/-! ## Finite samples -/

/-- A sample with a finite place and a finite time. -/
structure Sample.IsFinite (x : Sample α) : Prop where
  point : x.point.IsFinite
  time : isFinite x.time = true

/-- What has been sampled so far is finite. -/
def Sampler.IsFinite (s : Sampler α) : Prop := ∀ x ∈ s.track.samples, x.IsFinite

/-- What was there before is finite as well. -/
theorem Sampler.Extends.isFinite {done : ℕ} {s s' : Sampler α} (h : s.Extends done s')
    (hfinite : s'.IsFinite) : s.IsFinite := by
  obtain ⟨new, hnew⟩ := h.entries
  intro x hx
  apply hfinite
  rw [← Track.map_sample_entries, hnew, List.map_append, Track.map_sample_entries]
  exact List.mem_append_left _ hx

/-- Where the track is finite behind a sample, it was before and the sample is. -/
theorem Sampler.isFinite_of_push {s : Sampler α} (h : s.track.Linked) {x : Sample α} {pace : Pace}
    (hfinite : (s.push x pace).1.IsFinite) : s.IsFinite ∧ x.IsFinite := by
  obtain ⟨copy, -, hadd⟩ := h.samples_add x pace
  have hsamples : (s.push x pace).1.track.samples = s.track.samples ++ copy.toList ++ [x] := hadd
  unfold Sampler.IsFinite at hfinite
  rw [hsamples] at hfinite
  exact ⟨fun y hy => hfinite y (by simp [hy]), hfinite x (by simp)⟩

theorem Plane.isFinite_of_compose {plane : Plane} {p : Vec2 α} {height : α}
    (h : (plane.compose p height).IsFinite) : isFinite height = true := by
  cases plane with
  | xy => exact h.z
  | yz => exact h.x
  | zx => exact h.y

/-- A move leads to finite places only at finite ratios of its way. -/
theorem Move.isFinite_of_pointAt [Absorbing α] {m : Move α} {ratio : α}
    (h : (m.pointAt ratio).IsFinite) : isFinite ratio = true := by
  unfold Move.pointAt at h
  cases hshape : m.shape with
  | line =>
    rw [hshape] at h
    have hshare := (Absorbing.isFinite_of_add _ _ h.x).2
    exact (Absorbing.isFinite_of_mul _ _ hshare).2
  | arc arc =>
    rw [hshape] at h
    -- the height shows the ratio
    have hrise := (Absorbing.isFinite_of_add _ _ (Plane.isFinite_of_compose h)).2
    exact (Absorbing.isFinite_of_mul _ _ hrise).2

/-! ## The steps of a move -/

section Steps

variable [Isotone α] {m : Move α} {startTime : α} {steps : ℕ}

/-- Later steps lie at greater ratios. -/
theorem Move.stepRatio_mono {j k : ℕ} (hsteps : 0 < steps) (hjk : j ≤ k)
    (hj : IsNumber (Move.stepRatio j steps : α)) (hk : IsNumber (Move.stepRatio k steps : α)) :
    (Move.stepRatio j steps : α) ≤ Move.stepRatio k steps :=
  Isotone.div_le_div_right _ _ _ (Isotone.zero_lt_ofCount steps hsteps)
    (Isotone.ofCount_le_ofCount j k hjk) hj hk

/-- When some steps of a move are done, neither its end nor a step still to come is earlier than
now. -/
structure Move.Awaits (m : Move α) (startTime : α) (steps done : ℕ) (now : α) : Prop where
  le_end : now ≤ startTime + m.profile.duration
  le_step : ∀ k, done < k → IsNumber (Move.stepRatio k steps : α) →
    IsNumber (m.timeAt (Move.stepRatio k steps)) →
    now ≤ startTime + m.timeAt (Move.stepRatio k steps)

/-- At the start of a move its end and all its steps are still to come. -/
theorem Move.IsTimed.awaits_start (hm : m.IsTimed) (hstart : 0.0 ≤ startTime) (done : ℕ) :
    m.Awaits startTime steps done startTime :=
  ⟨le_add_of_zero_le hstart hm.zero_le_profile_duration,
    fun _ _ _ htime => le_add_of_zero_le hstart (hm.timeAt_mem htime).1⟩

/-- At a step of a move its end and the later steps are still to come. -/
theorem Move.IsTimed.awaits_step (hm : m.IsTimed) (hstart : 0.0 ≤ startTime) (hsteps : 0 < steps)
    {done : ℕ} (hratio : IsNumber (Move.stepRatio done steps : α))
    (htime : IsNumber (m.timeAt (Move.stepRatio done steps))) :
    m.Awaits startTime steps done (startTime + m.timeAt (Move.stepRatio done steps)) := by
  have hnumber : ∀ {time : α}, 0.0 ≤ time → IsNumber (startTime + time) :=
    fun htime => Rounding.isNumber_add _ _ hstart htime
  obtain ⟨hlo, hhi⟩ := hm.timeAt_mem htime
  constructor
  case le_end =>
    exact Isotone.add_le_add_left _ _ _ hhi (hnumber hlo) (hnumber hm.zero_le_profile_duration)
  case le_step =>
    intro k hk hratio' htime'
    have hle := hm.timeAt_mono (Move.stepRatio_mono hsteps hk.le hratio hratio') htime htime'
    exact Isotone.add_le_add_left _ _ _ hle (hnumber hlo) (hnumber (hm.timeAt_mem htime').1)

namespace Sampler

/-- The steps of a move are in time, and so are those still to come. -/
theorem exists_timeline_pushSteps (hm : m.IsTimed) (hstart : 0.0 ≤ startTime) (hsteps : 0 < steps)
    {n vertex : ℕ} {s : Sampler α} {out : Sampler α × ℕ} (hends : s.track.EndsOwn)
    (hne : s.track.samples ≠ []) (htimeline : IsTimeline s.track.samples startTime)
    (hout : (List.range n).foldlM (fun (u, _) j => pushStep m startTime steps (j + 1) u)
      (s, vertex) = .ok out) (hfinite : out.1.IsFinite) :
    ∃ now, IsTimeline out.1.track.samples now ∧ m.Awaits startTime steps n now := by
  induction n generalizing out with
  | zero =>
    cases hout
    exact ⟨startTime, htimeline, hm.awaits_start hstart 0⟩
  | succ n ih =>
    rw [List.range_succ, List.foldlM_append, bind_eq_ok] at hout
    obtain ⟨u, hu, hlast⟩ := hout
    rw [List.foldlM_cons, bind_eq_ok] at hlast
    obtain ⟨v, hv, hnil⟩ := hlast
    cases hnil
    obtain ⟨passage, hpassage, rfl⟩ := pushStep_eq_ok.1 hv
    obtain ⟨hends', new, hnew, -⟩ := adds_pushSteps hends hu
    obtain ⟨hfinite_before, hpoint, htime⟩ := isFinite_of_push hends'.linked hfinite
    obtain ⟨now, htimeline', hawaits⟩ := ih hu hfinite_before
    -- the step is passed at a time and a ratio that are finite
    have hratio := Rounding.isNumber_of_isFinite _ (Move.isFinite_of_pointAt hpoint)
    have htimeAt := Rounding.isNumber_of_isFinite _ (Absorbing.isFinite_of_add _ _ htime).2
    rw [Move.time_of_passageAt hpassage] at htimeAt
    have hne' : u.1.track.samples ≠ [] := by
      rw [← Track.map_sample_entries, hnew, List.map_append, Track.map_sample_entries]
      exact List.append_ne_nil_of_left_ne_nil hne _
    refine ⟨startTime + passage.time, ?_, ?_⟩
    · have hle := hawaits.le_step (n + 1) n.lt_succ_self hratio htimeAt
      rw [← Move.time_of_passageAt hpassage] at hle
      exact htimeline'.add hends'.linked hle (fun hnil => absurd hnil hne') m.pace
    · rw [Move.time_of_passageAt hpassage]
      exact hm.awaits_step hstart hsteps hratio htimeAt

end Sampler

end Steps

/-! ## Spans and clock -/

namespace Sampler

/-- The track is as late as the clock, and the spans of the moves done so far follow one another up
to it. -/
structure IsTimely (done : ℕ) (s : Sampler α) : Prop where
  timeline : IsTimeline s.track.samples s.clock
  zero_le_clock : 0.0 ≤ s.clock
  clock_start : done = 0 → s.clock = 0.0
  samples_nil : s.track.samples = [] ↔ done = 0
  span_le : ∀ {i : ℕ} {span : Span α}, i < done → s.track.spans[i]? = some span →
    span.startTime ≤ span.endTime ∧ span.endTime ≤ s.clock
  span_before : ∀ {i j : ℕ} {span span' : Span α}, i < j → j < done →
    s.track.spans[i]? = some span → s.track.spans[j]? = some span' →
    span.endTime ≤ span'.startTime

/-- A sampler in order, which is in time as long as what it has sampled is finite. -/
structure KeepsTime (settings : SamplingSettings α) (total done : ℕ) (s : Sampler α) : Prop where
  indexed : s.IsIndexed total done
  ends : s.track.EndsOwn
  settings_eq : s.track.settings = settings
  timely : s.IsFinite → s.IsTimely done

variable [Isotone α] {settings : SamplingSettings α} {total done : ℕ} {s s' : Sampler α}
  {m : Move α}

namespace IsTimely

/-- The start point of the first move of all is in time. -/
theorem timeline_opened (h : s.IsTimely done) (hends : s.track.EndsOwn) (m : Move α) :
    IsTimeline (s.opened m).track.samples s.clock ∧ (s.opened m).track.samples ≠ [] := by
  refine ⟨?_, List.length_pos_iff.1 (linked_opened hends.linked m).2.2⟩
  unfold opened
  by_cases hempty : s.track.isEmpty = true
  · rw [if_pos hempty]
    exact h.timeline.add (s := ⟨m.source, s.clock⟩) hends.linked (number_right h.zero_le_clock)
      (fun hnil => h.clock_start (h.samples_nil.1 hnil)) m.pace
  · rw [if_neg hempty]
    exact h.timeline

/-- The samples of a move are none later than its end. -/
theorem timeline_sampleMove (h : s.IsTimely done) (hends : s.track.EndsOwn) (hm : m.IsTimed)
    (hs' : s.sampleMove m = .ok s') (hfinite : s'.IsFinite) :
    IsTimeline s'.track.samples s'.clock ∧ s'.track.samples ≠ [] := by
  obtain ⟨hopened, hne⟩ := h.timeline_opened hends m
  obtain ⟨hends', -, -⟩ := endsOwn_opened hends m
  obtain ⟨out, hout, rfl⟩ := sampleMove_eq_ok.1 hs'
  simp only [Sampler.IsFinite, Track.mark_samples] at hfinite ⊢
  obtain ⟨now, htimeline, hawaits⟩ := exists_timeline_pushSteps hm h.zero_le_clock
    (m.stepCount_pos _) hends' hne hopened hout hfinite
  obtain ⟨-, new, hnew, -⟩ := adds_pushSteps hends' hout
  refine ⟨htimeline.mono hawaits.le_end, ?_⟩
  rw [← Track.map_sample_entries, hnew, List.map_append, Track.map_sample_entries]
  exact List.append_ne_nil_of_left_ne_nil hne _

/-- Sampling the next move is in time. Its span runs from the old clock to the new one, and so
follows those of the moves done before. -/
theorem sampleMove (h : s.IsTimely done) (hindexed : s.IsIndexed total done)
    (hends : s.track.EndsOwn) (hm : m.IsTimed) (hindex : m.index = done) (hdone : done < total)
    (hs' : s.sampleMove m = .ok s') (hfinite : s'.IsFinite) : s'.IsTimely (done + 1) := by
  obtain ⟨htimeline, hne⟩ := h.timeline_sampleMove hends hm hs' hfinite
  obtain ⟨own, hown, -, -, hstart, hend, hclock⟩ := hindexed.noted_sampleMove hs' hindex hdone
  -- the spans of earlier moves stay as they are; only the own span is new
  have hkept : ∀ i < done, s'.track.spans[i]? = s.track.spans[i]? := fun i hi =>
    (extends_sampleMove hends hs').spans i (hindex.symm ▸ hi)
  have hle : s.clock ≤ s'.clock := by
    rw [hclock]
    exact le_add_of_zero_le h.zero_le_clock hm.zero_le_profile_duration
  constructor
  case timeline => exact htimeline
  case zero_le_clock => exact num_le_trans h.zero_le_clock hle
  case clock_start => exact fun hzero => absurd hzero (Nat.succ_ne_zero done)
  case samples_nil =>
    exact ⟨fun hnil => absurd hnil hne, fun hzero => absurd hzero (Nat.succ_ne_zero done)⟩
  case span_le =>
    intro i span hi hspan
    rcases Nat.lt_succ_iff_lt_or_eq.1 hi with hlt | rfl
    · rw [hkept i hlt] at hspan
      obtain ⟨hrun, hbefore⟩ := h.span_le hlt hspan
      exact ⟨hrun, num_le_trans hbefore hle⟩
    · cases hown.symm.trans hspan
      rw [hstart, hend]
      exact ⟨hle, number_right hle⟩
  case span_before =>
    intro i j span span' hij hj hspan hspan'
    rw [hkept i (by omega)] at hspan
    rcases Nat.lt_succ_iff_lt_or_eq.1 hj with hlt | rfl
    · rw [hkept j hlt] at hspan'
      exact h.span_before hij hlt hspan hspan'
    · cases hown.symm.trans hspan'
      rw [hstart]
      exact (h.span_le hij hspan).2

/-- A sample at a later time is in time. -/
theorem later (h : s.IsTimely done) (hends : s.track.EndsOwn) (hdone : 0 < done) {interval : α}
    (hinterval : 0.0 ≤ interval) (point : Vec3 α) (pace : Pace) :
    ({ s with clock := s.clock + interval }.push ⟨point, s.clock + interval⟩ pace).1.IsTimely
      done := by
  have hle : s.clock ≤ s.clock + interval := le_add_of_zero_le h.zero_le_clock hinterval
  have hne : s.track.samples ≠ [] := fun hnil => absurd (h.samples_nil.1 hnil) hdone.ne'
  have hspans := s.track.add_spans ⟨point, s.clock + interval⟩ pace
  obtain ⟨copy, -, hadd⟩ := hends.linked.samples_add ⟨point, s.clock + interval⟩ pace
  constructor
  case timeline => exact h.timeline.add hends.linked hle (fun hnil => absurd hnil hne) pace
  case zero_le_clock => exact num_le_trans h.zero_le_clock hle
  case clock_start => exact fun hzero => absurd hzero hdone.ne'
  case samples_nil =>
    have hne' : (s.track.add ⟨point, s.clock + interval⟩ pace).1.samples ≠ [] := by simp [hadd]
    exact ⟨fun hnil => absurd hnil hne', fun hzero => absurd hzero hdone.ne'⟩
  case span_le =>
    simp only [push, hspans]
    intro i span hi hspan
    obtain ⟨hrun, hbefore⟩ := h.span_le hi hspan
    exact ⟨hrun, num_le_trans hbefore hle⟩
  case span_before =>
    simp only [push, hspans]
    exact h.span_before

/-- The samples that mark a stop are in time. -/
theorem dwell (h : s.IsTimely done) (hends : s.track.EndsOwn) (hdone : 0 < done)
    (hinterval : 0.0 ≤ s.track.settings.dwellInterval) (point : Vec3 α) (pace : Pace) :
    (s.dwell point pace).IsTimely done := by
  unfold Sampler.dwell
  induction List.range s.track.settings.dwellSamples generalizing s with
  | nil => exact h
  | cons _ rest ih =>
    rw [List.foldl_cons]
    have hpush := adds_push (s := { s with clock := s.clock + s.track.settings.dwellInterval })
      hends ⟨point, s.clock + s.track.settings.dwellInterval⟩ pace
    refine ih (h.later hends hdone hinterval point pace) hpush.ends ?_
    rw [(onward_push _ _ pace).settings]
    exact hinterval

omit [Isotone α] in
/-- The spans of the moves done start one after the other. -/
theorem startTime_le [NumberOrder α] (h : s.IsTimely done) {i j : ℕ} {span span' : Span α}
    (hij : i ≤ j) (hj : j < done) (hspan : s.track.spans[i]? = some span)
    (hspan' : s.track.spans[j]? = some span') : span.startTime ≤ span'.startTime := by
  have hle := (h.span_le (by omega) hspan).1
  rcases Nat.eq_or_lt_of_le hij with rfl | hlt
  · cases hspan.symm.trans hspan'
    exact number_left hle
  · exact num_le_trans hle (h.span_before hlt hj hspan hspan')

omit [Isotone α] in
/-- The first sample is at time zero, once a move is done. -/
theorem head?_times (h : s.IsTimely done) (moves : List (Move α)) (hdone : moves.length = done) :
    (s.track.samples.map (·.time)).head? = moves.head?.map fun _ => 0.0 := by
  rcases moves with _ | ⟨first, rest⟩
  · rw [h.samples_nil.2 hdone.symm]
    rfl
  · have hne : s.track.samples ≠ [] := fun hnil => by
      rw [h.samples_nil.1 hnil] at hdone
      exact absurd hdone (Nat.succ_ne_zero _)
    obtain ⟨x, others, hcons⟩ := List.exists_cons_of_ne_nil hne
    rw [hcons]
    exact congrArg some (h.timeline.starts x (by rw [hcons]; rfl))

end IsTimely

namespace KeepsTime

/-- Sampling the next move keeps time, and adds its span. -/
theorem sampleMove (h : s.KeepsTime settings total done) (hm : m.IsTimed) (hindex : m.index = done)
    (hdone : done < total) (hs' : s.sampleMove m = .ok s') :
    s'.KeepsTime settings total (done + 1) where
  indexed := h.indexed.sampleMove hs' hindex hdone
  ends := (adds_sampleMove h.ends hs').ends
  settings_eq := (settings_sampleMove hs').trans h.settings_eq
  timely hfinite :=
    (h.timely ((extends_sampleMove h.ends hs').isFinite hfinite)).sampleMove h.indexed h.ends hm
      hindex hdone hs' hfinite

/-- Dwelling behind a move keeps time. -/
theorem dwell (h : s.KeepsTime settings total done) (hdone : 0 < done)
    (hinterval : 0.0 ≤ settings.dwellInterval) (point : Vec3 α) (pace : Pace) :
    (s.dwell point pace).KeepsTime settings total done where
  indexed := h.indexed.dwell point pace
  ends := (adds_dwell h.ends point pace).ends
  settings_eq := (s.settings_dwell point pace).trans h.settings_eq
  timely hfinite :=
    (h.timely ((extends_dwell h.ends done point pace).isFinite hfinite)).dwell h.ends hdone
      (h.settings_eq ▸ hinterval) point pace

end KeepsTime

end Sampler

/-! ## The line at a time -/

/-- The line at a time is that of the last span that has started by then, or of the first one. -/
theorem Track.lineAt?_eq [NumberOrder α] {t : Track α}
    (hsorted : ∀ (i j : ℕ) (_ : i < t.spans.size) (_ : j < t.spans.size), i ≤ j →
      t.spans[i].startTime ≤ t.spans[j].startTime) (hpos : 0 < t.spans.size) (time : α) :
    ∃ (i : ℕ) (_ : i < t.spans.size), (i = 0 ∨ t.spans[i].startTime ≤ time) ∧
      (∀ (j : ℕ) (_ : j < t.spans.size), i < j → ¬ t.spans[j].startTime ≤ time) ∧
      t.lineAt? time = some t.spans[i].line := by
  -- bisection asks for a test that fails from some span on
  have hmono : ∀ (i j : ℕ) (_ : i < t.spans.size) (_ : j < t.spans.size), i ≤ j →
      decide (t.spans[j].startTime ≤ time) = true →
      decide (t.spans[i].startTime ≤ time) = true := by
    intro i j hi hj hij hstarted
    rw [decide_eq_true_iff] at hstarted ⊢
    exact num_le_trans (hsorted i j hi hj hij) hstarted
  have hle := leadingCount_le t.spans fun span => decide (span.startTime ≤ time)
  have hiff : ∀ (i : ℕ) (hi : i < t.spans.size),
      i < leadingCount t.spans (fun span => decide (span.startTime ≤ time)) ↔
        t.spans[i].startTime ≤ time := by
    intro i hi
    rw [lt_leadingCount_iff hmono hi, decide_eq_true_iff]
  unfold Track.lineAt?
  dsimp only
  generalize leadingCount t.spans (fun span => decide (span.startTime ≤ time)) = started
    at hle hiff
  have hi : started - 1 < t.spans.size := by omega
  refine ⟨started - 1, hi, ?_, ?_, ?_⟩
  · rcases Nat.eq_zero_or_pos started with hzero | hstarted
    · exact .inl (by omega)
    · exact .inr ((hiff (started - 1) hi).1 (by omega))
  · intro j hj hlt hstarted
    have hlt' := (hiff j hj).2 hstarted
    omega
  · rw [Array.getElem?_eq_getElem hi, Option.map_some]

/-- Without spans there is no line. -/
theorem Track.lineAt?_eq_none {t : Track α} (h : t.spans.size = 0) (time : α) :
    t.lineAt? time = none := by
  rw [Track.lineAt?, Array.size_eq_zero_iff.1 h]
  rfl

/-! ## Simulations -/

/-- All that a simulation reports of its moves and samples is finite. -/
structure Simulation.IsFinite (sim : Simulation α) : Prop where
  moves : ∀ m ∈ sim.moves, isFinite m.length = true ∧ isFinite m.profile.duration = true
  samples : ∀ x ∈ sim.track.closedSamples, x.IsFinite

/-- Over the reals everything is. -/
theorem Simulation.isFinite_real (sim : Simulation ℝ) : sim.IsFinite :=
  ⟨fun _ _ => ⟨rfl, rfl⟩, fun _ _ => ⟨⟨rfl, rfl, rfl⟩, rfl⟩⟩

/-- A simulation is in order of time. -/
structure Simulation.IsChronological (sim : Simulation α) : Prop where
  /-- The samples start at zero, if there is any motion. -/
  starts : (sim.track.closedSamples.map (·.time)).head? = sim.moves.head?.map fun _ => 0.0
  /-- Their times never decrease. -/
  sorted : (sim.track.closedSamples.map (·.time)).Pairwise (· ≤ ·)
  /-- They never exceed the total time. -/
  le_total : ∀ time ∈ sim.track.closedSamples.map (·.time), time ≤ sim.totalTime
  /-- Every move has its span. -/
  size_eq : sim.track.spans.size = sim.moves.length
  span_eq : ∀ (i : ℕ) (_ : i < sim.track.spans.size) (_ : i < sim.moves.length),
    sim.track.spans[i].index = i ∧ sim.track.spans[i].line = sim.moves[i].line
  /-- No span ends before it starts. -/
  span_le : ∀ (i : ℕ) (_ : i < sim.track.spans.size),
    sim.track.spans[i].startTime ≤ sim.track.spans[i].endTime
  /-- The spans start one after the other. -/
  span_sorted : ∀ (i j : ℕ) (_ : i < sim.track.spans.size) (_ : j < sim.track.spans.size), i ≤ j →
    sim.track.spans[i].startTime ≤ sim.track.spans[j].startTime
  /-- Without motion no line runs. -/
  line_none : ∀ time, sim.track.lineAt? time = none ↔ sim.moves = []
  /-- Else the line is that of the last move that has started, or of the first one. -/
  line_some : sim.moves ≠ [] → ∀ time, ∃ (i : ℕ) (_ : i < sim.track.spans.size)
    (_ : i < sim.moves.length), (i = 0 ∨ sim.track.spans[i].startTime ≤ time) ∧
      (∀ (j : ℕ) (_ : j < sim.track.spans.size), i < j →
        ¬ sim.track.spans[j].startTime ≤ time) ∧
      sim.track.lineAt? time = some sim.moves[i].line

section Simulate

variable [Isotone α] {s : Settings α} {p : Program} {sim : Simulation α}

/-- The track that interpretation leaves behind is ready for sampling. -/
theorem keepsTime_start (s : Settings α) (p : Program) :
    (Sampler.start (interpret s p).heard).KeepsTime s.sampling (interpret s p).path.size 0 := by
  obtain ⟨hends, -, hsettings⟩ := endsOwn_start s p
  have hsamples : (Sampler.start (interpret s p).heard).track.samples = [] :=
    (linked_interpret s p).2
  refine ⟨isIndexed_start s p, hends, hsettings, fun _ => ?_⟩
  constructor
  case timeline =>
    rw [hsamples]
    exact isTimeline_nil _
  case zero_le_clock => exact isNumber_zero
  case clock_start => exact fun _ => rfl
  case samples_nil => exact ⟨fun _ => rfl, fun _ => hsamples⟩
  case span_le => exact fun hi => absurd hi (Nat.not_lt_zero _)
  case span_before => exact fun _ hj => absurd hj (Nat.not_lt_zero _)

/-- The moves of a finite simulation can be read back. -/
theorem isTimed_simulate (h : simulate s p = .ok sim) (hfinite : sim.IsFinite) :
    ∀ m ∈ sim.moves, m.IsTimed := by
  intro m hm
  obtain ⟨hlength, hplans⟩ := List.forall₂_iff_get.1 (plans_simulate h)
  obtain ⟨hlength_finite, hduration⟩ := hfinite.moves m hm
  obtain ⟨planned, hplanned, hm⟩ := List.mem_flatMap.1 hm
  obtain ⟨i, hi, rfl⟩ := List.getElem_of_mem hplanned
  exact isTimed_plan (hplans i (by omega) hi) hm hlength_finite hduration

/-- Under accepted settings the sampler of a finite simulation keeps time to the end. -/
theorem isTimely_simulate (hs : s.validate = .ok ()) (h : simulate s p = .ok sim)
    (hfinite : sim.IsFinite) :
    ∃ sampler, sim.chains.foldlM Sampler.sampleChain (.start (interpret s p).heard) = .ok sampler ∧
      sim.track = sampler.track.close ∧ sim.totalTime = sampler.clock ∧
      sampler.IsTimely sim.moves.length := by
  have hinterval := (Settings.validate_eq_ok.1 hs).dwellInterval.2
  have htimed := isTimed_simulate h hfinite
  have hlength := (follows_simulate h).length_eq
  obtain ⟨planned, sampler, hrun, rfl⟩ := simulate_eq_ok.1 h
  obtain ⟨hplans, hsampled⟩ := planAndSample_eq_ok.1 hrun
  have hnumbered : IsNumbered 0 (planned.flatMap Chain.moves) :=
    (isNumbered_interpret s p).replanned (replanned_plans hplans)
  have hkeeps := Sampler.keeps_sampleChains
    (fun done u => u.KeepsTime s.sampling (interpret s p).path.size done)
    (fun hu hm hindex hdone hu' => hu.sampleMove hm hindex hdone hu')
    (fun point pace hdone hu => hu.dwell hdone hinterval point pace)
    (keepsTime_start s p) htimed hnumbered (by rw [Nat.zero_add]; exact hlength.le) hsampled
  rw [Nat.zero_add] at hkeeps
  exact ⟨sampler, hsampled, rfl, rfl, hkeeps.timely hfinite.samples⟩

/-- The result of a finite simulation is in order of time. -/
theorem isChronological_simulate (hs : s.validate = .ok ()) (h : simulate s p = .ok sim)
    (hfinite : sim.IsFinite) : sim.IsChronological := by
  obtain ⟨sampler, -, htrack, htotal, htimely⟩ := isTimely_simulate hs h hfinite
  have hlaid := isLaidOut_simulate h
  have hsize := hlaid.size_eq
  -- what the sampler keeps is said of its own track; closing that changes neither samples nor spans
  have hsamples : sim.track.closedSamples = sampler.track.samples := by rw [htrack, Track.samples]
  have hspan : ∀ (i : ℕ) (hi : i < sim.track.spans.size),
      sampler.track.spans[i]? = some sim.track.spans[i] := by
    intro i hi
    rw [← Array.getElem?_eq_getElem hi, htrack, Track.close_spans]
  have hsorted : ∀ (i j : ℕ) (_ : i < sim.track.spans.size) (_ : j < sim.track.spans.size),
      i ≤ j → sim.track.spans[i].startTime ≤ sim.track.spans[j].startTime := fun i j hi hj hij =>
    htimely.startTime_le hij (hsize ▸ hj) (hspan i hi) (hspan j hj)
  have hfound : sim.moves ≠ [] → _ := fun hne =>
    Track.lineAt?_eq hsorted (hsize ▸ List.length_pos_iff.2 hne)
  constructor
  case starts =>
    rw [hsamples]
    exact htimely.head?_times sim.moves rfl
  case sorted =>
    rw [hsamples, List.pairwise_map]
    exact htimely.timeline.sorted
  case le_total =>
    intro time htime
    rw [hsamples] at htime
    obtain ⟨x, hx, rfl⟩ := List.mem_map.1 htime
    rw [htotal]
    exact htimely.timeline.le_now x hx
  case size_eq => exact hsize
  case span_eq => exact hlaid.span_eq
  case span_le => exact fun i hi => (htimely.span_le (hsize ▸ hi) (hspan i hi)).1
  case span_sorted => exact hsorted
  case line_none =>
    intro time
    constructor
    · intro hnone
      by_contra hne
      obtain ⟨i, hi, -, -, hsome⟩ := hfound hne time
      rw [hnone] at hsome
      contradiction
    · intro hnil
      exact Track.lineAt?_eq_none (by rw [hsize, hnil]; rfl) time
  case line_some =>
    intro hne time
    obtain ⟨i, hi, hstart, hlater, hsome⟩ := hfound hne time
    have hi' : i < sim.moves.length := hsize ▸ hi
    exact ⟨i, hi, hi', hstart, hlater, by rw [hsome, (hlaid.span_eq i hi hi').2]⟩

end Simulate

/-- Over the reals all moves are tame. -/
theorem exists_simulate_real {s : Settings ℝ} (h : s.validate = .ok ()) (p : Program) :
    ∃ sim, simulate s p = .ok sim :=
  exists_simulate_of_isTame h fun _ _ => ⟨le_rfl, rfl, rfl⟩

/-- Under accepted settings every program is simulated over the reals, along its path and in order
of time. In single precision every simulation is, if what it reports is finite. -/
theorem simulate_isChronological (p : Program) :
    (∀ s : Settings ℝ, s.validate = .ok () → ∃ sim, simulate s p = .ok sim ∧
      sim.Follows (interpret s p).path ∧ sim.IsChronological) ∧
    ∀ (s : Settings Float32) (sim : Simulation Float32), s.validate = .ok () →
      simulate s p = .ok sim → sim.IsFinite →
      sim.Follows (interpret s p).path ∧ sim.IsChronological := by
  constructor
  · intro s hs
    obtain ⟨sim, hsim⟩ := exists_simulate_real hs p
    exact ⟨sim, hsim, follows_simulate hsim,
      isChronological_simulate hs hsim sim.isFinite_real⟩
  · intro s sim hs hsim hfinite
    exact ⟨follows_simulate hsim, isChronological_simulate hs hsim hfinite⟩

/-- One straight move of length one. -/
def unitLine : Program := [.ofPairs 1 [('X', 1.0)]]

theorem axisWords_unitLine :
    (Block.ofPairs 1 [('X', 1.0)]).axisWords = (⟨some 1, none, none⟩ : AxisWords ℝ) := by
  have hdatum : Number.doubleDatum 1.0 = .finite false (2 ^ 52) (-52) := by decide +kernel
  have hone : (Number.doubleDatum 1.0).toReal = 1 := by
    rw [hdatum]
    norm_num [Number.Datum.toReal]
  have hvalue : (Block.ofPairs 1 [('X', 1.0)]).value? 'X' = some (1 : ℝ) := congrArg some hone
  rw [← hvalue]
  rfl

theorem motionOf_unitLine : (Machine.initial (Settings.default : Settings ℝ)).motionOf
    (Settings.default : Settings ℝ).machine (.ofPairs 1 [('X', 1.0)]) =
    .ok (some (.make .line .zero ⟨1, 0, 0⟩ MachineSettings.default.travelFeedRate 1 .rapid)) := by
  have hzero : (0.0 : ℝ) = 0 := by norm_num
  have htarget : (Machine.initial (Settings.default : Settings ℝ)).targetOf
      (Settings.default : Settings ℝ).machine ⟨some 1, none, none⟩ = ⟨1, 0, 0⟩ := by
    simp [Machine.targetOf, Machine.initial, Settings.default, MachineSettings.default,
      MachineSettings.originOffset, DistanceMode.resolve, Vec3.ofAxes, Vec3.get, Vec3.zero, hzero]
  have hfar : (Machine.minDisplacement : ℝ) < ((⟨1, 0, 0⟩ : Vec3 ℝ) - .zero).maxAbs := by
    show (0.00001 : ℝ) < larger |1 - 0.0| _
    rw [larger_eq_max]
    exact lt_max_of_lt_left (by norm_num)
  unfold Machine.motionOf
  rw [axisWords_unitLine]
  dsimp only
  rw [htarget]
  exact congrArg Except.ok (if_pos hfar)

/-- The path of a line of one unit is this line. -/
theorem path_unitLine : ∃ m : Move ℝ,
    (interpret Settings.default unitLine).path = #[m] ∧ m.courseLength = 1 := by
  have hfeed : (Machine.initial (Settings.default : Settings ℝ)).applyFeed
      (.ofPairs 1 [('X', 1.0)]) = (.initial .default, []) := rfl
  have hcodes : (Machine.initial (Settings.default : Settings ℝ)).applyCodes
      (Settings.default : Settings ℝ).strictness (.ofPairs 1 [('X', 1.0)]) =
      (.initial .default, []) := rfl
  have hmove : ((Machine.initial (Settings.default : Settings ℝ)).execute .default
      (.ofPairs 1 [('X', 1.0)])).move? =
      some (.make .line .zero ⟨1, 0, 0⟩ MachineSettings.default.travelFeedRate 1 .rapid) := by
    rw [Machine.move_execute, hfeed, hcodes, motionOf_unitLine]
  refine ⟨.make .line .zero ⟨1, 0, 0⟩ MachineSettings.default.travelFeedRate 1 .rapid, ?_, ?_⟩
  · exact Interpretation.path_singleton hmove
  · show Real.sqrt ((0.0 - 1) * (0.0 - 1) + (0.0 - 0) * (0.0 - 0) + (0.0 - 0) * (0.0 - 0)) = 1
    norm_num

/-- A straight line under the default settings is one move, in order of time over the reals and in
single precision. -/
theorem simulate_isChronological_line :
    (Settings.default : Settings ℝ).validate = .ok () ∧
    (Settings.default : Settings Float32).validate = .ok () ∧
    (∃ sim : Simulation ℝ, simulate Settings.default unitLine = .ok sim ∧
      (sim.Follows (interpret Settings.default unitLine).path ∧ sim.IsChronological) ∧
      sim.moves.length = 1) ∧
    ∃ sim : Simulation Float32, simulate Settings.default unitLine = .ok sim ∧ sim.IsFinite ∧
      (sim.Follows (interpret Settings.default unitLine).path ∧ sim.IsChronological) ∧
      sim.moves.length = 1 ∧ sim.track.vertices.length = 51 := by
  have hvalid : (Settings.default : Settings ℝ).validate = .ok () :=
    Settings.validate_eq_ok.2 Settings.isValid_default
  have hvalid' : (Settings.default : Settings Float32).validate = .ok () := by decide +kernel
  have hrun : ∃ sim ∈ (simulate (Settings.default : Settings Float32) unitLine).toOption,
      (∀ m ∈ sim.moves, isFinite m.length = true ∧ isFinite m.profile.duration = true) ∧
      (∀ x ∈ sim.track.closedSamples, isFinite x.point.x = true ∧ isFinite x.point.y = true ∧
        isFinite x.point.z = true ∧ isFinite x.time = true) ∧
      sim.moves.length = 1 ∧ sim.track.vertices.length = 51 := by
    decide +kernel
  obtain ⟨hreal, hsingle⟩ := simulate_isChronological unitLine
  obtain ⟨exact, hexact, hfollows, hordered⟩ := hreal Settings.default hvalid
  obtain ⟨drawn, hpath, -⟩ := path_unitLine
  have hcount := hfollows.length_eq
  rw [hpath] at hcount
  obtain ⟨sim, hsim, hmoves, hsamples, hcounts⟩ := exists_simulate_of_toOption hrun
  have hfinite : sim.IsFinite := by
    refine ⟨hmoves, fun x hx => ?_⟩
    obtain ⟨hx, hy, hz, htime⟩ := hsamples x hx
    exact ⟨⟨hx, hy, hz⟩, htime⟩
  exact ⟨hvalid, hvalid', ⟨exact, hexact, ⟨hfollows, hordered⟩, hcount⟩, sim, hsim, hfinite,
    hsingle _ sim hvalid' hsim hfinite, hcounts⟩

end Toolpath
