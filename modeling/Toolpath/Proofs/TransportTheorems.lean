import Toolpath.Proofs.JunctionTheorems
import Toolpath.Proofs.TranslationTheorems

/-!
# Simulations of translated machines

A track carries its points and never looks at them: which samples share a run, where the runs are
closed and what is found at a time depends on paces, counts and times alone. So a map of the points
goes through every action on a track (`Track.mapPoints`), and through the lookup of a place if it
keeps the way between two points (`Track.positionAt?_mapPoints`).

Sampling translated chains with the same clock gives the translated track
(`Sampler.IsTranslated`), and the whole simulation is translated (`simulate_translate`): a program
of places is simulated alike wherever the machine and its origins stand.
-/

namespace Toolpath

open Scalar

/-! ## Tracks with other points -/

section Points

variable {α : Type} (f : Vec3 α → Vec3 α)

/-- The sample at the same time of another point. -/
def Sample.mapPoint (s : Sample α) : Sample α := { s with point := f s.point }

/-- The run through other points. -/
def Run.mapPoints (r : Run α) : Run α := { r with samples := r.samples.map (Sample.mapPoint f) }

/-- The span of a move with other corners. -/
def Span.mapPoints (span : Span α) : Span α := { span with corners := span.corners.map f }

/-- The track through other points. -/
def Track.mapPoints (t : Track α) : Track α :=
  { t with
    runs := t.runs.map (Run.mapPoints f)
    seed := t.seed.map (Sample.mapPoint f)
    fresh := t.fresh.map (Sample.mapPoint f)
    spans := t.spans.map (Span.mapPoints f) }

theorem isEmpty_map {β γ : Type} (g : β → γ) (xs : Array β) : (xs.map g).isEmpty = xs.isEmpty := by
  unfold Array.isEmpty
  rw [Array.size_map]

namespace Track

/-- What is open on a track is counted alike. -/
theorem openCount_mapPoints (t : Track α) : (t.mapPoints f).openCount = t.openCount := by
  unfold openCount mapPoints
  dsimp only
  rw [Option.isSome_map, Array.size_map]

theorem isEmpty_mapPoints (t : Track α) : (t.mapPoints f).isEmpty = t.isEmpty := by
  have hruns : (t.mapPoints f).runs.isEmpty = t.runs.isEmpty := isEmpty_map _ _
  unfold isEmpty
  rw [openCount_mapPoints, hruns]

theorem vertexCount_mapPoints (t : Track α) : (t.mapPoints f).vertexCount = t.vertexCount := by
  have hfresh : (t.mapPoints f).fresh.isEmpty = t.fresh.isEmpty := isEmpty_map _ _
  unfold vertexCount
  rw [openCount_mapPoints, hfresh]
  rfl

/-- A sample calls for a new run wherever it called for one. -/
theorem needsClose_mapPoints (t : Track α) (pace : Pace) :
    (t.mapPoints f).needsClose pace = t.needsClose pace := by
  unfold needsClose
  rw [openCount_mapPoints]
  rfl

/-- The open samples are those at the other points. -/
theorem openSamples_mapPoints (t : Track α) :
    (t.mapPoints f).openSamples = t.openSamples.map (Sample.mapPoint f) := by
  unfold openSamples mapPoints
  dsimp only
  rw [Array.map_append]
  cases t.seed with
  | none => simp
  | some s => simp

/-- The open samples are closed alike. -/
theorem close_mapPoints (t : Track α) : (t.mapPoints f).close = t.close.mapPoints f := by
  have hback : (t.mapPoints f).fresh.back? = t.fresh.back?.map (Sample.mapPoint f) :=
    Array.back?_map
  cases hlast : t.fresh.back? with
  | none =>
    have hempty : t.fresh = #[] := Array.back?_eq_none_iff.1 hlast
    rw [hlast] at hback
    rw [close_of_fresh_empty hempty, close_of_fresh_empty (Array.back?_eq_none_iff.1 hback)]
  | some last =>
    rw [hlast] at hback
    rw [close_of_back hlast, close_of_back hback, openSamples_mapPoints, Array.size_map]
    unfold mapPoints
    dsimp only
    rw [Array.map_push, Array.map_empty]
    rfl

/-- Adding a sample at the other point gives the track with the other points, and tells the same
vertex. -/
theorem add_mapPoints (t : Track α) (s : Sample α) (pace : Pace) :
    (t.mapPoints f).add (s.mapPoint f) pace = ((t.add s pace).1.mapPoints f, (t.add s pace).2) := by
  have hpush : ∀ u : Track α,
      { u.mapPoints f with pace, fresh := (u.mapPoints f).fresh.push (s.mapPoint f) } =
        { u with pace, fresh := u.fresh.push s }.mapPoints f := by
    intro u
    unfold mapPoints
    dsimp only
    rw [Array.map_push]
  unfold add
  dsimp only
  rw [needsClose_mapPoints]
  split_ifs
  · rw [close_mapPoints, hpush, openCount_mapPoints]
    rfl
  · rw [hpush, openCount_mapPoints]
    rfl

/-- Spans are marked alike. -/
theorem mark_mapPoints (t : Track α) (index firstVertex endVertex : ℕ) (startTime endTime : α) :
    (t.mapPoints f).mark index firstVertex endVertex startTime endTime =
      (t.mark index firstVertex endVertex startTime endTime).mapPoints f := by
  have hget : (t.mapPoints f).spans[index]? = t.spans[index]?.map (Span.mapPoints f) :=
    Array.getElem?_map
  unfold mark
  rw [hget]
  cases t.spans[index]? with
  | none => rfl
  | some span =>
    rw [Option.map_some]
    dsimp only
    by_cases hindex : span.index = index
    · have hindex' : (span.mapPoints f).index = index := hindex
      rw [if_pos hindex, if_pos hindex']
      unfold mapPoints
      dsimp only
      rw [Array.map_setIfInBounds]
      rfl
    · have hindex' : ¬ (span.mapPoints f).index = index := hindex
      rw [if_neg hindex, if_neg hindex']

/-- The vertices are those at the other points. -/
theorem vertices_mapPoints (t : Track α) :
    (t.mapPoints f).vertices = t.vertices.map fun v => (f v.1, v.2) := by
  unfold vertices mapPoints
  dsimp only
  rw [Array.toList_map, List.flatMap_map, List.map_flatMap]
  congr 1
  funext r
  rw [List.map_map]
  unfold Run.mapPoints
  dsimp only
  rw [Array.toList_map, List.map_map]
  rfl

end Track

/-! ## Lookups -/

variable [Scalar α]

/-- A line is looked up by the times alone. -/
theorem Track.lineAt?_mapPoints (t : Track α) (time : α) :
    (t.mapPoints f).lineAt? time = t.lineAt? time := by
  unfold lineAt? mapPoints
  dsimp only
  rw [leadingCount_map, Array.getElem?_map, Option.map_map]
  rfl

section Places

variable {f} (hf : ∀ u v ratio, f (u.lerp v ratio) = (f u).lerp (f v) ratio)
include hf

/-- Between two other points lies the image of the point between. -/
theorem Run.between_mapPoint (before after : Sample α) (time : α) :
    between (before.mapPoint f) (after.mapPoint f) time = f (between before after time) :=
  (hf before.point after.point _).symm

/-- At any time of a run at other points lies the image of the point at that time. -/
theorem Run.positionAt?_mapPoints (r : Run α) (time : α) :
    (r.mapPoints f).positionAt? time = (r.positionAt? time).map f := by
  have hnext : leadingCount (r.samples.map (Sample.mapPoint f)) (fun s => decide (s.time < time)) =
      leadingCount r.samples fun s => decide (s.time < time) := leadingCount_map _ _ _
  unfold positionAt? mapPoints
  dsimp only
  rw [hnext, Array.getElem?_map, Array.getElem?_map, Array.back?_map]
  generalize leadingCount r.samples (fun s => decide (s.time < time)) = next
  cases r.samples[next]? with
  | none => cases r.samples.back? <;> rfl
  | some after =>
    by_cases hfirst : next = 0
    · rw [if_pos hfirst, if_pos hfirst]
      rfl
    · rw [if_neg hfirst, if_neg hfirst]
      cases r.samples[next - 1]? with
      | none => rfl
      | some before => exact congrArg some (between_mapPoint hf before after time)

/-- Where the ways between points are kept, a place is found at the image of the other. -/
theorem Track.positionAt?_mapPoints (t : Track α) (time : α) :
    (t.mapPoints f).positionAt? time = (t.positionAt? time).map f := by
  have hlasts : ∀ r : Run α, ((r.mapPoints f).samples.back?.map fun s => decide (time ≤ s.time)) =
      r.samples.back?.map fun s => decide (time ≤ s.time) := by
    intro r
    unfold Run.mapPoints
    rw [Array.back?_map, Option.map_map]
    rfl
  unfold positionAt?
  dsimp only
  rw [show (t.mapPoints f).runs = t.runs.map (Run.mapPoints f) from rfl, Array.find?_map,
    Array.back?_map]
  simp only [Function.comp_def, hlasts]
  cases t.runs.find? fun r => (r.samples.back?.map fun s => decide (time ≤ s.time)).getD false with
  | none =>
    cases t.runs.back? with
    | none => rfl
    | some r => exact Run.positionAt?_mapPoints hf r time
  | some r => exact Run.positionAt?_mapPoints hf r time

end Places

end Points

/-! ## Boxes -/

/-- Whether a least coordinate follows another at a distance. Both start at `top`, which hides the
points beyond it. -/
structure Follows (top d a b : ℝ) : Prop where
  le_top : b ≤ top
  le : min top (a + d) ≤ b
  eq_of_lt : a < top → b = min top (a + d)

/-- At the start both bounds are at the top. -/
theorem follows_top (top d : ℝ) : Follows top d top top :=
  ⟨le_rfl, min_le_left _ _, fun h => absurd h (lt_irrefl top)⟩

/-- A bound that takes in a point is followed by one that takes in the point moved on. -/
theorem Follows.least {top d a b : ℝ} (h : Follows top d a b) (x : ℝ) :
    Follows top d (min a x) (min b (x + d)) := by
  have hsum : min a x + d = min (a + d) (x + d) := (min_add_add_right a x d).symm
  constructor
  case le_top => exact (min_le_left _ _).trans h.le_top
  case le =>
    rw [hsum]
    refine le_min ?_ ?_
    · exact (min_le_min_left top (min_le_left _ _)).trans h.le
    · exact (min_le_right _ _).trans (min_le_right _ _)
  case eq_of_lt =>
    intro hlt
    rw [hsum]
    rcases lt_or_ge a top with ha | ha
    · rw [h.eq_of_lt ha, min_assoc]
    · -- nothing below the top was seen before, on either side
      have hx : x ≤ a := (((min_lt_iff.1 hlt).resolve_left ha.not_gt).trans_le ha).le
      have hle : x + d ≤ a + d := by linarith
      rw [min_eq_right hle]
      apply le_antisymm
      · exact le_min ((min_le_left _ _).trans h.le_top) (min_le_right _ _)
      · exact le_min ((min_le_min_left top hle).trans h.le) (min_le_right _ _)

/-- Where there has been a point the bound has moved on with it. -/
theorem Follows.eq {top d a b : ℝ} (h : Follows top d a b) (ha : a < top) (hb : b < top) :
    b = a + d := by
  have hmin := h.eq_of_lt ha
  rcases min_choice top (a + d) with hleft | hright
  · exact absurd (hmin.trans hleft) hb.ne
  · exact hmin.trans hright

namespace Box

/-- The box between the translated corners. -/
def translate {α : Type} [Arithmetic α] (o : Vec3 α) (box : Box α) : Box α :=
  ⟨box.min + o, box.max + o⟩

/-- Whether the corners of a box come from points, on every axis, and not from the bounds that it
starts with. -/
def IsInRange (box : Box ℝ) : Prop :=
  ∀ axis, box.min.get axis < largest ∧ -largest < box.max.get axis

/-- Whether a box has been stretched to translated points. -/
structure IsTranslated (o : Vec3 ℝ) (box box' : Box ℝ) : Prop where
  min_follows : ∀ axis, Follows largest (o.get axis) (box.min.get axis) (box'.min.get axis)
  max_follows : ∀ axis, Follows largest (-o.get axis) (-box.max.get axis) (-box'.max.get axis)

/-- The empty box is its own translation. -/
theorem isTranslated_empty (o : Vec3 ℝ) : (empty : Box ℝ).IsTranslated o empty := by
  have hmin : ∀ axis, (empty : Box ℝ).min.get axis = largest := fun axis => by cases axis <;> rfl
  have hmax : ∀ axis, (empty : Box ℝ).max.get axis = -largest := fun axis => by cases axis <;> rfl
  constructor
  · intro axis
    rw [hmin]
    exact follows_top _ _
  · intro axis
    rw [hmax, neg_neg]
    exact follows_top _ _

/-- A box that takes in a point is translated to one that takes in the translated point. -/
theorem IsTranslated.add {o : Vec3 ℝ} {box box' : Box ℝ} (h : box.IsTranslated o box')
    (p : Vec3 ℝ) : (box.add p).IsTranslated o (box'.add (p + o)) := by
  have hmin : ∀ (b : Box ℝ) (q : Vec3 ℝ) axis,
      (b.add q).min.get axis = Min.min (b.min.get axis) (q.get axis) := by
    intro b q axis
    rw [← least_eq_min]
    cases axis <;> rfl
  have hmax : ∀ (b : Box ℝ) (q : Vec3 ℝ) axis,
      -(b.add q).max.get axis = Min.min (-b.max.get axis) (-q.get axis) := by
    intro b q axis
    rw [min_neg_neg, ← greatest_eq_max]
    cases axis <;> rfl
  constructor
  · intro axis
    rw [hmin, hmin, p.get_add]
    exact (h.min_follows axis).least _
  · intro axis
    rw [hmax, hmax, p.get_add, neg_add]
    exact (h.max_follows axis).least _

/-- Corners that come from points are translated with them. -/
theorem IsTranslated.eq {o : Vec3 ℝ} {box box' : Box ℝ} (h : box.IsTranslated o box')
    (hbox : box.IsInRange) (hbox' : box'.IsInRange) : box' = box.translate o := by
  have hmin : box'.min = box.min + o := by
    apply Vec3.eq_of_get
    intro axis
    rw [(h.min_follows axis).eq (hbox axis).1 (hbox' axis).1, Vec3.get_add]
  have hmax : box'.max = box.max + o := by
    apply Vec3.eq_of_get
    intro axis
    have hneg := (h.max_follows axis).eq (neg_lt.1 (hbox axis).2) (neg_lt.1 (hbox' axis).2)
    rw [Vec3.get_add]
    linarith
  exact congrArg₂ Box.mk hmin hmax

end Box

/-! ## Sampling -/

namespace Sampler

/-- Whether a sampler has sampled the translated points at the same times. -/
structure IsTranslated (o : Vec3 ℝ) (s s' : Sampler ℝ) : Prop where
  clock_eq : s'.clock = s.clock
  sampleCount_eq : s'.sampleCount = s.sampleCount
  track_eq : s'.track = s.track.mapPoints (· + o)
  box : s.box.IsTranslated o s'.box

/-- Whether two samplers have besides come to the same vertex. -/
def IsTranslatedAt (o : Vec3 ℝ) (u u' : Sampler ℝ × ℕ) : Prop :=
  u.1.IsTranslated o u'.1 ∧ u'.2 = u.2

namespace IsTranslated

variable {o : Vec3 ℝ} {s s' : Sampler ℝ}

/-- Both samplers have the same settings. -/
theorem settings_eq (h : s.IsTranslated o s') : s'.track.settings = s.track.settings := by
  rw [h.track_eq]
  rfl

/-- They push a sample and its translation alike. -/
theorem push (h : s.IsTranslated o s') (x : Sample ℝ) (pace : Pace) :
    IsTranslatedAt o (s.push x pace) (s'.push (x.mapPoint (· + o)) pace) := by
  have hadd := s.track.add_mapPoints (· + o) x pace
  rw [← h.track_eq] at hadd
  have htrack := congrArg Prod.fst hadd
  have hvertex := congrArg Prod.snd hadd
  exact ⟨⟨h.clock_eq, congrArg (· + 1) h.sampleCount_eq, htrack, h.box.add x.point⟩, hvertex⟩

/-- They open a move and its translation alike. -/
theorem opened (h : s.IsTranslated o s') (m : Move ℝ) :
    (s.opened m).IsTranslated o (s'.opened (m.translate o)) := by
  have hempty : s'.track.isEmpty = s.track.isEmpty := by
    rw [h.track_eq, Track.isEmpty_mapPoints]
  unfold Sampler.opened
  rw [hempty, h.clock_eq]
  split_ifs
  · exact (h.push ⟨m.source, s.clock⟩ m.pace).1
  · exact h

/-- They take a step of a move and of its translation alike. -/
theorem pushStep (h : s.IsTranslated o s') {m : Move ℝ} {startTime : ℝ} {steps step : ℕ}
    {out : Sampler ℝ × ℕ} (hout : Sampler.pushStep m startTime steps step s = .ok out) :
    ∃ out', Sampler.pushStep (m.translate o) startTime steps step s' = .ok out' ∧
      IsTranslatedAt o out out' := by
  obtain ⟨passage, hpassage, rfl⟩ := pushStep_eq_ok.1 hout
  refine ⟨_, pushStep_eq_ok.2 ⟨passage, hpassage, rfl⟩, ?_⟩
  rw [m.pointAt_translate]
  exact h.push _ m.pace

/-- They sample a move and its translation alike. -/
theorem sampleMove (h : s.IsTranslated o s') {m : Move ℝ} {t : Sampler ℝ}
    (ht : s.sampleMove m = .ok t) :
    ∃ t', s'.sampleMove (m.translate o) = .ok t' ∧ t.IsTranslated o t' := by
  obtain ⟨out, hsteps, rfl⟩ := sampleMove_eq_ok.1 ht
  have hopened := h.opened m
  have hcount : (m.translate o).stepCount s'.track.settings = m.stepCount s.track.settings := by
    rw [m.stepCount_translate, h.settings_eq]
  have hvertex : (s'.opened (m.translate o)).track.vertexCount - 1 =
      (s.opened m).track.vertexCount - 1 := by
    rw [hopened.track_eq, Track.vertexCount_mapPoints]
  have hstart : IsTranslatedAt o (s.opened m, (s.opened m).track.vertexCount - 1)
      (s'.opened (m.translate o), (s'.opened (m.translate o)).track.vertexCount - 1) :=
    ⟨hopened, hvertex⟩
  obtain ⟨out', hsteps', hlast, hplace⟩ := foldlM_follows (g := id) (R := IsTranslatedAt o)
    (k := fun u j => Sampler.pushStep (m.translate o) s.clock (m.stepCount s.track.settings)
      (j + 1) u.1) (fun _ _ _ _ hu hout => hu.1.pushStep hout) hstart hsteps
  rw [List.map_id] at hsteps'
  refine ⟨_, sampleMove_eq_ok.2 ⟨out', ?_, rfl⟩, ?_⟩
  · rw [hcount, h.clock_eq]
    exact hsteps'
  · refine ⟨congrArg (· + m.profile.duration) h.clock_eq, hlast.sampleCount_eq, ?_, hlast.box⟩
    dsimp only
    rw [hlast.track_eq, hvertex, hplace, h.clock_eq]
    exact Track.mark_mapPoints _ _ _ _ _ _ _

/-- They dwell at a point and at its translation alike. -/
theorem dwell (h : s.IsTranslated o s') (point : Vec3 ℝ) (pace : Pace) :
    (s.dwell point pace).IsTranslated o (s'.dwell (point + o) pace) := by
  unfold Sampler.dwell
  rw [h.settings_eq]
  induction List.range s.track.settings.dwellSamples generalizing s s' with
  | nil => exact h
  | cons _ rest ih =>
    rw [List.foldl_cons, List.foldl_cons]
    have hclock : s'.clock + s'.track.settings.dwellInterval =
        s.clock + s.track.settings.dwellInterval := by rw [h.clock_eq, h.settings_eq]
    have hlater : ({ s with clock := s.clock + s.track.settings.dwellInterval } :
        Sampler ℝ).IsTranslated o
          { s' with clock := s'.clock + s'.track.settings.dwellInterval } :=
      ⟨hclock, h.sampleCount_eq, h.track_eq, h.box⟩
    apply ih
    rw [hclock] at hlater ⊢
    exact (hlater.push ⟨point, _⟩ pace).1

/-- They sample a chain and its translation alike. -/
theorem sampleChain (h : s.IsTranslated o s') {c : Chain ℝ} {t : Sampler ℝ}
    (ht : s.sampleChain c = .ok t) :
    ∃ t', s'.sampleChain (c.translate o) = .ok t' ∧ t.IsTranslated o t' := by
  obtain ⟨u, hu, rfl⟩ := sampleChain_eq_ok.1 ht
  obtain ⟨u', hu', hmoves⟩ := foldlM_follows (g := Move.translate o)
    (fun _ _ _ _ hs hmove => hs.sampleMove hmove) h hu
  refine ⟨_, sampleChain_eq_ok.2 ⟨u', hu', rfl⟩, ?_⟩
  unfold Chain.translate
  dsimp only
  rw [List.getLast?_map]
  cases c.moves.getLast? with
  | none => exact hmoves
  | some last => exact hmoves.dwell last.target last.pace

end IsTranslated

end Sampler

/-! ## Simulations -/

/-- Whether a simulation is another one, translated. -/
structure Simulation.IsTranslated (o : Vec3 ℝ) (sim sim' : Simulation ℝ) : Prop where
  /-- The moves run between the translated points, in the same chains, with the same lengths,
  limits and profiles. -/
  chains_eq : sim'.chains = sim.chains.map (Chain.translate o)
  /-- The samples and the corners of the spans are translated; the times are the same. -/
  track_eq : sim'.track = sim.track.mapPoints (· + o)
  vertices_eq : sim'.track.vertices = sim.track.vertices.map fun v => (v.1 + o, v.2)
  totalTime_eq : sim'.totalTime = sim.totalTime
  sampleCount_eq : sim'.sampleCount = sim.sampleCount
  problems_eq : sim'.problems = sim.problems
  /-- The boxes are translated too, unless points beyond the greatest number stretch them. -/
  box_eq : sim.box.IsInRange → sim'.box.IsInRange → sim'.box = sim.box.translate o
  positionAt_eq : ∀ time, sim'.track.positionAt? time = (sim.track.positionAt? time).map (· + o)
  lineAt_eq : ∀ time, sim'.track.lineAt? time = sim.track.lineAt? time

/-- The moves of the one are the translated moves of the other. -/
theorem Simulation.IsTranslated.moves_eq {o : Vec3 ℝ} {sim sim' : Simulation ℝ}
    (h : sim.IsTranslated o sim') : sim'.moves = sim.moves.map (Move.translate o) := by
  unfold moves
  rw [h.chains_eq, List.flatMap_map, List.map_flatMap]
  rfl

/-- The span that stands for a translated move is the translated span. -/
theorem Track.spanOf_translate (o : Vec3 ℝ) (settings : SamplingSettings ℝ) (m : Move ℝ) :
    spanOf settings (m.translate o) = (spanOf settings m).mapPoints (· + o) := by
  unfold spanOf
  rw [m.isArc_translate, m.stepCount_translate, m.polyline_translate]
  rfl

section Simulations

variable {s : Settings ℝ} (hs : s.machine.workOffsets.length = originCount) {p : Program}
  (hp : IsAbsolute p) (o : Vec3 ℝ)
include hs hp

/-- The translated machine interprets a program as the translated moves. -/
theorem interpret_translate :
    (interpret s p).IsImage (Machine.translate o) (Move.translate o)
      (interpret (s.translate o) p) :=
  interpretation_translate hs hp Track.enter Track.enter _ _ o

/-- The track hears of the translated moves. -/
theorem heard_translate :
    (interpret (s.translate o) p).heard = (interpret s p).heard.mapPoints (· + o) := by
  have hpath := congrArg Array.toList (interpret_translate hs hp o).path_eq
  rw [Array.toList_map] at hpath
  have hspans : (((interpret s p).path.toList.map (Move.translate o)).map
      (Track.spanOf s.sampling)).toArray =
        ((interpret s p).path.toList.map (Track.spanOf s.sampling)).toArray.map
          (Span.mapPoints (· + o)) := by
    rw [List.map_map, List.map_toArray, List.map_map]
    exact congrArg List.toArray
      (List.map_congr_left fun m _ => Track.spanOf_translate o s.sampling m)
  rw [heard_interpret, heard_interpret, hpath, show (s.translate o).sampling = s.sampling from rfl,
    hspans]
  unfold Track.mapPoints Track.empty
  rw [Array.map_empty, Array.map_empty]
  rfl

/-- Sampling starts with translated spans and nothing else. -/
theorem isTranslated_start : (Sampler.start (interpret s p).heard).IsTranslated o
    (.start (interpret (s.translate o) p).heard) :=
  ⟨rfl, rfl, heard_translate hs hp o, Box.isTranslated_empty o⟩

end Simulations

/-- Under accepted settings every program of places is simulated, and the translated machine
simulates it translated. -/
theorem simulate_translate (s : Settings ℝ) (p : Program) (o : Vec3 ℝ) (h : s.validate = .ok ())
    (hp : IsAbsolute p) : ∃ sim sim', simulate s p = .ok sim ∧
      simulate (s.translate o) p = .ok sim' ∧ sim.IsTranslated o sim' := by
  have hs := (Settings.validate_eq_ok.1 h).workOffsets
  have himage := interpret_translate hs hp o
  obtain ⟨sim, hsim⟩ := exists_simulate_real h p
  obtain ⟨planned, sampler, hrun, rfl⟩ := simulate_eq_ok.1 hsim
  obtain ⟨hplans, hsampled⟩ := planAndSample_eq_ok.1 hrun
  have hplans' : List.Forall₂ (fun c plan => c.plan = .ok plan)
      (Chain.ofPath (interpret (s.translate o) p).path.toList
        (s.translate o).machine.maxAcceleration) (planned.map (Chain.translate o)) := by
    rw [himage.path_eq, Array.toList_map, Chain.ofPath_translate, List.forall₂_map_left_iff,
      List.forall₂_map_right_iff]
    exact hplans.imp fun c plan hplan => Chain.plan_translate o hplan
  -- the second sampler follows the first step by step, so it does not fail either
  obtain ⟨sampler', hsampled', hlast⟩ := foldlM_follows (g := Chain.translate o)
    (fun _ _ _ _ hs hchain => hs.sampleChain hchain) (isTranslated_start hs hp o) hsampled
  have htrack : sampler'.track.close = sampler.track.close.mapPoints (· + o) := by
    rw [hlast.track_eq, Track.close_mapPoints]
  refine ⟨_, _, hsim, simulate_eq_ok.2
    ⟨_, sampler', planAndSample_eq_ok.2 ⟨hplans', hsampled'⟩, rfl⟩, ?_⟩
  constructor
  case chains_eq => rfl
  case track_eq => exact htrack
  case vertices_eq =>
    dsimp only
    rw [htrack, Track.vertices_mapPoints]
  case totalTime_eq => exact hlast.clock_eq
  case sampleCount_eq => exact hlast.sampleCount_eq
  case problems_eq => exact congrArg Array.toList himage.problems_eq
  case box_eq => exact hlast.box.eq
  case positionAt_eq =>
    intro time
    dsimp only
    rw [htrack, Track.positionAt?_mapPoints fun u v ratio => (u.lerp_add v o ratio).symm]
  case lineAt_eq =>
    intro time
    dsimp only
    rw [htrack, Track.lineAt?_mapPoints]

/-- An arc and the same arc elsewhere. -/
theorem simulate_translate_offsetArc :
    (Settings.default : Settings ℝ).validate = .ok () ∧ IsAbsolute [offsetArc] ∧
      ∃ sim sim' : Simulation ℝ, simulate Settings.default [offsetArc] = .ok sim ∧
        simulate (Settings.default.translate ⟨1, 2, 3⟩) [offsetArc] = .ok sim' ∧
        sim.IsTranslated ⟨1, 2, 3⟩ sim' ∧
        ∃ m ∈ sim'.moves, m.source = ⟨1, 2, 3⟩ ∧ m.target = ⟨11, 2, 3⟩ := by
  have hvalid : (Settings.default : Settings ℝ).validate = .ok () :=
    Settings.validate_eq_ok.2 Settings.isValid_default
  have heffects : offsetArc.effects = [.motion .clockwise] := by decide +kernel
  have habsolute : IsAbsolute [offsetArc] := by
    intro b hb
    rw [List.mem_singleton.1 hb, heffects]
    decide
  obtain ⟨sim, sim', hsim, hsim', htranslated⟩ :=
    simulate_translate Settings.default [offsetArc] ⟨1, 2, 3⟩ hvalid habsolute
  obtain ⟨m, hm, hcourse⟩ := exists_move_offsetArc hsim
  have hzero : (0.0 : ℝ) = 0 := by norm_num
  have hsource : m.source = ⟨0.0, 0.0, 0.0⟩ := congrArg (·.2.1) hcourse
  have htarget : m.target = ⟨10, 0, 0⟩ := congrArg (·.2.2) hcourse
  refine ⟨hvalid, habsolute, sim, sim', hsim, hsim', htranslated, m.translate ⟨1, 2, 3⟩, ?_, ?_, ?_⟩
  · rw [htranslated.moves_eq]
    exact List.mem_map_of_mem hm
  · show m.source + ⟨1, 2, 3⟩ = _
    rw [hsource, hzero]
    show Vec3.mk (0 + 1 : ℝ) (0 + 2) (0 + 3) = _
    rw [zero_add, zero_add, zero_add]
  · show m.target + ⟨1, 2, 3⟩ = _
    rw [htarget]
    show Vec3.mk (10 + 1 : ℝ) (0 + 2) (0 + 3) = _
    rw [zero_add, zero_add]
    norm_num

end Toolpath
