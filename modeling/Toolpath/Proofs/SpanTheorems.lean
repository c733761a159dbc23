import Toolpath.Proofs.BatchTheorems
import Toolpath.Proofs.VertexTheorems

/-!
# The span of a move

The spans of a track tell where the samples of each move lie among the vertices. A span starts at
the vertex that was there last, and behind that vertex come exactly the points of the move at equal
ratios of its way, once the copies that start a new run are left out (`Span.Holds`).

The sampler adds points to the track (`Sampler.Adds`), of one move after the other, and of the
stops between chains. What it has laid out stays as it is, because entries are only appended and
every mark sets a span of its own (`Sampler.Extends`). Together this is what sampling one move
does to its span (`Sampler.IsIndexed.holds_sampleMove`).
-/

namespace Toolpath

variable {α : Type}

/-- The points of the entries that are no copies. -/
def ownPoints (entries : List (Entry α)) : List (Vec3 α) :=
  (ownSamples entries).map fun (s, _) => s.point

@[simp] theorem ownPoints_append (xs ys : List (Entry α)) :
    ownPoints (xs ++ ys) = ownPoints xs ++ ownPoints ys := by
  simp [ownPoints]

/-! ## Spans -/

/-- A span holds the points of a move: its first and last vertex are no copies, up to the first
the vertices hold the points added before, and behind it the points of the move. -/
structure Span.Holds (span : Span α) (entries : List (Entry α)) (before points : List (Vec3 α)) :
    Prop where
  two_le : span.firstVertex + 2 ≤ span.endVertex
  le_length : span.endVertex ≤ entries.length
  first_own : entries[span.firstVertex]?.map (·.isCopy) = some false
  last_own : entries[span.endVertex - 1]?.map (·.isCopy) = some false
  before_eq : ownPoints (entries.take (span.firstVertex + 1)) = before
  points_eq : ownPoints ((entries.take span.endVertex).drop (span.firstVertex + 1)) = points

/-- From the last of some entries to the last of those behind, a span holds the points behind. -/
theorem Span.holds_append {span : Span α} {entries new : List (Entry α)}
    (hfirst : span.firstVertex + 1 = entries.length)
    (hend : span.endVertex = (entries ++ new).length) (hnew : 0 < new.length)
    (hown : entries[entries.length - 1]?.map (·.isCopy) = some false)
    (hown' : (entries ++ new)[(entries ++ new).length - 1]?.map (·.isCopy) = some false) :
    span.Holds (entries ++ new) (ownPoints entries) (ownPoints new) := by
  have hlength : (entries ++ new).length = entries.length + new.length := List.length_append
  constructor
  case two_le => omega
  case le_length => exact hend.le
  case first_own =>
    rw [← hfirst, Nat.add_sub_cancel] at hown
    rw [List.getElem?_append_left (by omega)]
    exact hown
  case last_own =>
    rw [hend]
    exact hown'
  case before_eq => rw [hfirst, List.take_left]
  case points_eq => rw [hend, List.take_length, hfirst, List.drop_left]

/-- More entries do not matter. -/
theorem Span.Holds.append {span : Span α} {entries : List (Entry α)} {before points : List (Vec3 α)}
    (h : span.Holds entries before points) (more : List (Entry α)) :
    span.Holds (entries ++ more) before points := by
  have hle := h.le_length
  have htwo := h.two_le
  constructor
  case two_le => exact htwo
  case le_length => rw [List.length_append]; omega
  case first_own =>
    rw [List.getElem?_append_left (by omega)]
    exact h.first_own
  case last_own =>
    rw [List.getElem?_append_left (by omega)]
    exact h.last_own
  case before_eq =>
    rw [List.take_append_of_le_length (by omega)]
    exact h.before_eq
  case points_eq =>
    rw [List.take_append_of_le_length hle]
    exact h.points_eq

/-- The last of the entries up to one. -/
theorem take_eq_concat {entries : List (Entry α)} {j : ℕ} {e : Entry α} (hj : 0 < j)
    (he : entries[j - 1]? = some e) : entries.take j = entries.take (j - 1) ++ [e] := by
  conv_lhs => rw [show j = j - 1 + 1 by omega]
  rw [List.take_add_one, he, Option.toList_some]

theorem ownPoints_singleton {e : Entry α} (hown : e.isCopy = false) :
    ownPoints [e] = [e.sample.point] := by simp [ownPoints, ownSamples, hown]

/-- Up to an entry that is no copy there are more points than up to the one before it. -/
theorem length_ownPoints_take_lt {entries : List (Entry α)} {i j : ℕ} (hij : i < j)
    (hown : entries[j - 1]?.map (·.isCopy) = some false) :
    (ownPoints (entries.take i)).length < (ownPoints (entries.take j)).length := by
  obtain ⟨e, he, hcopy⟩ := Option.map_eq_some_iff.1 hown
  have hsplit : entries.take j = entries.take i ++ ((entries.take (j - 1)).drop i ++ [e]) := by
    rw [take_eq_concat (by omega) he, ← List.append_assoc]
    congr 1
    conv_lhs => rw [← List.take_append_drop i (entries.take (j - 1))]
    rw [List.take_take, min_eq_left (by omega)]
  rw [hsplit, ownPoints_append, ownPoints_append, List.length_append, List.length_append,
    ownPoints_singleton hcopy, List.length_singleton]
  omega

/-- The last of the points that a span holds is that of its last entry. -/
theorem Span.Holds.getLast?_points {span : Span α} {entries : List (Entry α)}
    {before points : List (Vec3 α)} (h : span.Holds entries before points) :
    points.getLast? = entries[span.endVertex - 1]?.map (·.sample.point) := by
  have htwo := h.two_le
  have hle := h.le_length
  obtain ⟨e, he, hcopy⟩ := Option.map_eq_some_iff.1 h.last_own
  rw [← h.points_eq, take_eq_concat (by omega) he, List.drop_append_of_le_length (by simp; omega),
    ownPoints_append, ownPoints_singleton hcopy, List.getLast?_concat, he, Option.map_some]

/-- The next span starts where one ends, if nothing has been added in between. -/
theorem Span.Holds.next {span span' : Span α} {entries : List (Entry α)}
    {before points points' : List (Vec3 α)} (h : span.Holds entries before points)
    (h' : span'.Holds entries (before ++ points) points') :
    span'.firstVertex + 1 = span.endVertex := by
  have htwo := h.two_le
  have hsplit : entries.take span.endVertex = entries.take (span.firstVertex + 1) ++
      (entries.take span.endVertex).drop (span.firstVertex + 1) := by
    conv_lhs => rw [← List.take_append_drop (span.firstVertex + 1) (entries.take span.endVertex)]
    rw [List.take_take, min_eq_left (by omega)]
  have hsame : ownPoints (entries.take (span'.firstVertex + 1)) =
      ownPoints (entries.take span.endVertex) := by
    rw [h'.before_eq, hsplit, ownPoints_append, h.before_eq, h.points_eq]
  -- as many points lie up to either end, and both ends are points
  rcases lt_trichotomy (span'.firstVertex + 1) span.endVertex with hlt | heq | hgt
  · have hless := length_ownPoints_take_lt hlt h.last_own
    rw [hsame] at hless
    exact absurd hless (Nat.lt_irrefl _)
  · exact heq
  · have hless := length_ownPoints_take_lt (j := span'.firstVertex + 1) hgt h'.first_own
    rw [hsame] at hless
    exact absurd hless (Nat.lt_irrefl _)

/-- Behind a single point the first span starts, at the first vertex. -/
theorem Span.Holds.firstVertex_eq_zero {span : Span α} {entries : List (Entry α)} {x : Vec3 α}
    {points : List (Vec3 α)} (h : span.Holds entries [x] points)
    (hhead : entries[0]?.map (·.isCopy) = some false) : span.firstVertex = 0 := by
  by_contra hne
  have hone := length_ownPoints_take_lt (j := 1) Nat.zero_lt_one hhead
  have hmore := length_ownPoints_take_lt (i := 1) (j := span.firstVertex + 1) (by omega) h.first_own
  rw [h.before_eq, List.length_singleton] at hmore
  omega

/-- What marking leaves as it is: the line of a span, its number and its polyline. -/
def Span.heading (span : Span α) : ℕ × ℕ × List (Vec3 α) := (span.line, span.index, span.corners)

namespace Track

theorem mark_getElem?_of_ne (t : Track α) {index i : ℕ} (hne : i ≠ index)
    (firstVertex endVertex : ℕ) (startTime endTime : α) :
    (t.mark index firstVertex endVertex startTime endTime).spans[i]? = t.spans[i]? := by
  unfold mark
  split
  · rfl
  · split_ifs
    · dsimp only
      rw [Array.getElem?_setIfInBounds_ne (Ne.symm hne)]
    · rfl

theorem mark_heading (t : Track α) (index firstVertex endVertex : ℕ) (startTime endTime : α) :
    (t.mark index firstVertex endVertex startTime endTime).spans.map Span.heading =
      t.spans.map Span.heading := by
  unfold mark
  split
  · rfl
  · rename_i span hspan
    split_ifs
    · -- the span that is set has the heading of the one it replaces
      apply Array.ext_getElem?
      intro i
      dsimp only
      rw [Array.getElem?_map, Array.getElem?_map, Array.getElem?_setIfInBounds]
      split_ifs with hi hsize
      · subst hi
        rw [hspan]
        rfl
      · subst hi
        rw [Array.getElem?_eq_none (by omega)]
      · rfl
    · rfl

@[simp] theorem mark_entries (t : Track α) (index firstVertex endVertex : ℕ)
    (startTime endTime : α) :
    (t.mark index firstVertex endVertex startTime endTime).entries = t.entries := by
  unfold mark
  split
  · rfl
  · split_ifs
    · unfold entries close
      dsimp only
      split <;> rfl
    · rfl

/-- The first sample of all is no copy. -/
theorem Linked.head_entries {t : Track α} (h : t.Linked) {e : Entry α}
    (he : t.entries.head? = some e) : e.isCopy = false := by
  unfold entries at he
  have hne := h.close.samples_ne
  cases hruns : t.close.runs.toList with
  | nil =>
    rw [hruns] at he
    contradiction
  | cons first rest =>
    rw [hruns, Run.entriesOf, Run.entries] at he
    have hfirst : first.samples ≠ #[] :=
      hne first (Array.mem_def.2 (by rw [hruns]; exact List.mem_cons_self))
    split at he
    · rename_i hnil
      exact absurd (Array.toList_eq_nil_iff.1 hnil) hfirst
    · rw [← Option.some.inj he]

/-- The vertices are those of the entries, once the open run is closed. -/
theorem vertices_close (t : Track α) :
    t.close.vertices = t.entries.map fun e => (e.sample.point, e.pace) := by
  have hrun : ∀ (continues : Bool) (r : Run α),
      (r.entries continues).map (fun e => (e.sample.point, e.pace)) =
        r.samples.toList.map fun s => (s.point, r.pace) := by
    intro continues r
    unfold Run.entries
    split
    · simp [*]
    · simp [*, Function.comp_def]
  unfold vertices entries
  cases t.close.runs.toList with
  | nil => rfl
  | cons first rest =>
    rw [Run.entriesOf, List.map_append, List.map_flatMap, List.flatMap_cons]
    simp only [hrun]

end Track

variable [Scalar α]

/-! ## The points of a move -/

theorem chordCount_pos {ω : Type} [WideScalar ω] (radius sweep tolerance : ω) (maxSteps : ℕ) :
    0 < chordCount radius sweep tolerance maxSteps := by
  unfold chordCount
  dsimp only
  split_ifs
  · split
    · omega
    · split_ifs <;> omega
  · exact Nat.one_pos

namespace Move

theorem stepCount_pos (m : Move α) (settings : SamplingSettings α) : 0 < m.stepCount settings := by
  unfold stepCount
  split
  · omega
  · exact chordCount_pos _ _ _ _

/-- The points of the samples of a move, in order. -/
def points (m : Move α) (settings : SamplingSettings α) : List (Vec3 α) :=
  (List.range (m.stepCount settings)).map fun j =>
    m.pointAt (stepRatio (j + 1) (m.stepCount settings))

/-- The polyline of a move has its start point in front of them. -/
theorem tail_polyline (m : Move α) (settings : SamplingSettings α) :
    (m.polyline (m.stepCount settings)).tail = m.points settings := by
  have hpos := m.stepCount_pos settings
  have hmax : max (m.stepCount settings) 1 = m.stepCount settings := by omega
  unfold polyline points
  dsimp only
  rw [hmax, List.range_succ_eq_map, List.map_cons, List.tail_cons, List.map_map]
  rfl

end Move

/-- The points of the samples of a chain: those of its moves, then those of the stop behind it. -/
def Chain.points (c : Chain α) (settings : SamplingSettings α) : List (Vec3 α) :=
  c.moves.flatMap (·.points settings) ++
    (c.moves.getLast?.map fun last => List.replicate settings.dwellSamples last.target).getD []

/-! ## Adding points -/

/-- A linked track whose last sample is no copy. -/
structure Track.EndsOwn {α : Type} (t : Track α) : Prop where
  linked : t.Linked
  last_own : ∀ e, t.entries.getLast? = some e → e.isCopy = false

omit [Scalar α] in
/-- The last sample is no copy. -/
theorem Track.EndsOwn.getElem?_last {t : Track α} (h : t.EndsOwn) (hpos : 0 < t.entries.length) :
    t.entries[t.entries.length - 1]?.map (·.isCopy) = some false := by
  have hne : t.entries ≠ [] := List.length_pos_iff.1 hpos
  obtain ⟨last, hlast⟩ := Option.ne_none_iff_exists'.1 (mt List.getLast?_eq_none_iff.1 hne)
  rw [← List.getLast?_eq_getElem?, hlast, Option.map_some, h.last_own last hlast]

omit [Scalar α] in
/-- Only a track without samples has no points of its own. -/
theorem Track.EndsOwn.ownPoints_eq_nil {t : Track α} (h : t.EndsOwn) :
    ownPoints t.entries = [] ↔ t.samples = [] := by
  rw [← t.map_sample_entries, List.map_eq_nil_iff]
  constructor
  · intro hnil
    by_contra hne
    obtain ⟨last, hlast⟩ := Option.ne_none_iff_exists'.1 (mt List.getLast?_eq_none_iff.1 hne)
    obtain ⟨init, hinit⟩ := List.getLast?_eq_some_iff.1 hlast
    have hown := h.last_own last hlast
    rw [hinit, ownPoints_append, List.append_eq_nil_iff] at hnil
    simp [ownPoints, ownSamples, hown] at hnil
  · intro hnil
    rw [hnil]
    rfl

namespace Sampler

/-- One state of the sampler has points that another does not have yet. -/
structure Adds {α : Type} (points : List (Vec3 α)) (s s' : Sampler α) : Prop where
  ends : s'.track.EndsOwn
  entries : ∃ new, s'.track.entries = s.track.entries ++ new ∧ ownPoints new = points

namespace Adds

variable {s s' s'' : Sampler α} {points points' : List (Vec3 α)}

omit [Scalar α] in
theorem refl (h : s.track.EndsOwn) : s.Adds [] s := ⟨h, [], (List.append_nil _).symm, rfl⟩

omit [Scalar α] in
theorem trans (h : s.Adds points s') (h' : s'.Adds points' s'') :
    s.Adds (points ++ points') s'' := by
  obtain ⟨new, hnew, hpoints⟩ := h.entries
  obtain ⟨new', hnew', hpoints'⟩ := h'.entries
  refine ⟨h'.ends, new ++ new', ?_, ?_⟩
  · rw [hnew', hnew, List.append_assoc]
  · rw [ownPoints_append, hpoints, hpoints']

omit [Scalar α] in
theorem ownPoints_eq (h : s.Adds points s') :
    ownPoints s'.track.entries = ownPoints s.track.entries ++ points := by
  obtain ⟨new, hnew, hpoints⟩ := h.entries
  rw [hnew, ownPoints_append, hpoints]

end Adds

/-- A sample adds its point. -/
theorem adds_push {s : Sampler α} (h : s.track.EndsOwn) (x : Sample α) (pace : Pace) :
    s.Adds [x.point] (s.push x pace).1 := by
  obtain ⟨copy, hadd⟩ := h.linked.entries_add x pace
  have hentries : (s.push x pace).1.track.entries =
      s.track.entries ++ (copy.toList.map (⟨·, pace, true⟩) ++ [⟨x, pace, false⟩]) := by
    rw [← List.append_assoc]
    exact hadd
  refine ⟨⟨h.linked.add x pace, ?_⟩, _, hentries, ?_⟩
  · intro e he
    rw [hentries, ← List.append_assoc, List.getLast?_concat] at he
    rw [← Option.some.inj he]
  · cases copy <;> rfl

/-- The steps of a move add its points at their ratios. -/
theorem adds_pushSteps {m : Move α} {startTime : α} {steps vertex : ℕ} {js : List ℕ}
    {s : Sampler α} {out : Sampler α × ℕ} (h : s.track.EndsOwn)
    (hout : js.foldlM (fun (u, _) j => pushStep m startTime steps (j + 1) u) (s, vertex)
      = .ok out) :
    s.Adds (js.map fun j => m.pointAt (Move.stepRatio (j + 1) steps)) out.1 := by
  induction js generalizing s vertex with
  | nil =>
    cases hout
    exact Adds.refl h
  | cons j rest ih =>
    rw [List.foldlM_cons, bind_eq_ok] at hout
    obtain ⟨next, hstep, hrest⟩ := hout
    obtain ⟨passage, -, rfl⟩ := pushStep_eq_ok.1 hstep
    have hpush := adds_push h ⟨m.pointAt (Move.stepRatio (j + 1) steps), startTime + passage.time⟩
      m.pace
    exact hpush.trans (ih hpush.ends hrest)

/-- The points of a path that goes on with moves: the first of all starts at its source. -/
def startedAt {α : Type} (points : List (Vec3 α)) (moves : List (Move α)) : List (Vec3 α) :=
  if points.isEmpty then moves.head?.toList.map (·.source) else points

omit [Scalar α] in
theorem startedAt_of_ne {points : List (Vec3 α)} (h : points ≠ []) (moves : List (Move α)) :
    startedAt points moves = points := by
  rw [startedAt, if_neg (by simpa using h)]

omit [Scalar α] in
theorem startedAt_nil (points : List (Vec3 α)) :
    startedAt points ([] : List (Move α)) = points := by
  unfold startedAt
  split_ifs with h
  · rw [List.isEmpty_iff.1 h]
    rfl
  · rfl

/-- Only the first move of all adds its start point. -/
theorem endsOwn_opened {s : Sampler α} (h : s.track.EndsOwn) (m : Move α) :
    (s.opened m).track.EndsOwn ∧
      ownPoints (s.opened m).track.entries = startedAt (ownPoints s.track.entries) [m] ∧
      ∃ new, (s.opened m).track.entries = s.track.entries ++ new := by
  have hnil := h.ownPoints_eq_nil
  unfold opened
  by_cases hempty : s.track.isEmpty = true
  · rw [if_pos hempty]
    have hpush := adds_push h ⟨m.source, s.clock⟩ m.pace
    have hpoints := hnil.2 (h.linked.isEmpty_iff.1 hempty)
    obtain ⟨new, hnew, -⟩ := hpush.entries
    refine ⟨hpush.ends, ?_, new, hnew⟩
    rw [hpush.ownPoints_eq, hpoints]
    rfl
  · rw [if_neg hempty]
    have hne : ownPoints s.track.entries ≠ [] := fun hpoints =>
      hempty (h.linked.isEmpty_iff.2 (hnil.1 hpoints))
    exact ⟨h, (startedAt_of_ne hne [m]).symm, [], (List.append_nil _).symm⟩

/-- Sampling a move adds its points. -/
theorem adds_sampleMove {s s' : Sampler α} {m : Move α} (h : s.track.EndsOwn)
    (hs' : s.sampleMove m = .ok s') : (s.opened m).Adds (m.points s.track.settings) s' := by
  obtain ⟨out, hout, rfl⟩ := sampleMove_eq_ok.1 hs'
  obtain ⟨hopened, -, -⟩ := endsOwn_opened h m
  obtain ⟨⟨hlinked, hlast⟩, new, hnew, hpoints⟩ := adds_pushSteps hopened hout
  refine ⟨⟨hlinked.mark _ _ _ _ _, ?_⟩, new, ?_, hpoints⟩
  · rw [Track.mark_entries]
    exact hlast
  · rw [Track.mark_entries, hnew]

/-- The samples that mark a stop all have its point. -/
theorem adds_dwell {s : Sampler α} (h : s.track.EndsOwn) (point : Vec3 α) (pace : Pace) :
    s.Adds (List.replicate s.track.settings.dwellSamples point) (s.dwell point pace) := by
  rw [← List.length_range (n := s.track.settings.dwellSamples)]
  unfold dwell
  induction List.range s.track.settings.dwellSamples generalizing s with
  | nil => exact Adds.refl h
  | cons _ rest ih =>
    have hpush := adds_push (s := { s with clock := s.clock + s.track.settings.dwellInterval }) h
      ⟨point, s.clock + s.track.settings.dwellInterval⟩ pace
    have hfirst : s.Adds [point] _ := ⟨hpush.ends, hpush.entries⟩
    exact hfirst.trans (ih hpush.ends)

/-! ## What stays -/

/-- A later state of the sampler: entries are appended, and the spans of the moves done keep their
places. -/
structure Extends {α : Type} (done : ℕ) (s s' : Sampler α) : Prop where
  entries : ∃ new, s'.track.entries = s.track.entries ++ new
  spans : ∀ i < done, s'.track.spans[i]? = s.track.spans[i]?

namespace Extends

variable {done done' : ℕ} {s s' s'' : Sampler α}

omit [Scalar α] in
theorem refl (done : ℕ) (s : Sampler α) : s.Extends done s :=
  ⟨⟨[], (List.append_nil _).symm⟩, fun _ _ => rfl⟩

omit [Scalar α] in
theorem trans (h : s.Extends done s') (h' : s'.Extends done s'') : s.Extends done s'' := by
  obtain ⟨new, hnew⟩ := h.entries
  obtain ⟨new', hnew'⟩ := h'.entries
  refine ⟨⟨new ++ new', ?_⟩, fun i hi => (h'.spans i hi).trans (h.spans i hi)⟩
  rw [hnew', hnew, List.append_assoc]

omit [Scalar α] in
theorem mono (h : s.Extends done' s') (hle : done ≤ done') : s.Extends done s' :=
  ⟨h.entries, fun i hi => h.spans i (by omega)⟩

omit [Scalar α] in
/-- What a span holds it holds later on. -/
theorem holds (h : s.Extends done s') {i : ℕ} (hi : i < done) {span : Span α}
    {before points : List (Vec3 α)} (hspan : s.track.spans[i]? = some span)
    (hholds : span.Holds s.track.entries before points) :
    s'.track.spans[i]? = some span ∧ span.Holds s'.track.entries before points := by
  obtain ⟨new, hnew⟩ := h.entries
  rw [hnew]
  exact ⟨(h.spans i hi).trans hspan, hholds.append new⟩

end Extends

theorem spans_pushSteps {m : Move α} {startTime : α} {steps vertex : ℕ} {js : List ℕ}
    {s : Sampler α} {out : Sampler α × ℕ}
    (hout : js.foldlM (fun (u, _) j => pushStep m startTime steps (j + 1) u) (s, vertex)
      = .ok out) : out.1.track.spans = s.track.spans := by
  refine foldlM_keeps (fun u => u.1.track.spans = s.track.spans) ?_ rfl hout
  intro u j u' hu hstep
  obtain ⟨passage, -, rfl⟩ := pushStep_eq_ok.1 hstep
  exact (onward_push u.1 _ m.pace).spans.trans hu

theorem extends_sampleMove {s s' : Sampler α} {m : Move α} (h : s.track.EndsOwn)
    (hs' : s.sampleMove m = .ok s') : s.Extends m.index s' := by
  obtain ⟨-, -, opening, hopening⟩ := endsOwn_opened h m
  obtain ⟨new, hnew, -⟩ := (adds_sampleMove h hs').entries
  refine ⟨⟨opening ++ new, by rw [hnew, hopening, List.append_assoc]⟩, ?_⟩
  obtain ⟨out, hout, rfl⟩ := sampleMove_eq_ok.1 hs'
  intro i hi
  rw [Track.mark_getElem?_of_ne _ (by omega), spans_pushSteps hout, (s.onward_opened m).spans]

theorem spans_dwell (s : Sampler α) (point : Vec3 α) (pace : Pace) :
    (s.dwell point pace).track.spans = s.track.spans := by
  unfold dwell
  induction List.range s.track.settings.dwellSamples generalizing s with
  | nil => rfl
  | cons _ rest ih =>
    rw [List.foldl_cons, ih]
    exact Track.add_spans _ _ _

theorem extends_dwell {s : Sampler α} (h : s.track.EndsOwn) (done : ℕ) (point : Vec3 α)
    (pace : Pace) : s.Extends done (s.dwell point pace) := by
  obtain ⟨new, hnew, -⟩ := (adds_dwell h point pace).entries
  exact ⟨⟨new, hnew⟩, fun i _ => by rw [spans_dwell]⟩

/-! ## The span of a move -/

/-- Sampling a move notes in its span the last vertex before it and the last one behind, and the
clock before and behind. -/
theorem IsIndexed.noted_sampleMove {total done : ℕ} {s s' : Sampler α} {m : Move α}
    (h : s.IsIndexed total done) (hs' : s.sampleMove m = .ok s') (hindex : m.index = done)
    (hdone : done < total) :
    ∃ span, s'.track.spans[done]? = some span ∧
      span.firstVertex + 1 = (s.opened m).track.samples.length ∧
      span.endVertex = s'.track.samples.length ∧
      span.startTime = s.clock ∧ span.endTime = s'.clock ∧
      s'.clock = s.clock + m.profile.duration := by
  obtain ⟨out, hout, rfl⟩ := sampleMove_eq_ok.1 hs'
  obtain ⟨hopened, -, hpos⟩ := linked_opened h.linked m
  have hfirst : (s.opened m).track.vertexCount - 1 + 1 = (s.opened m).track.samples.length := by
    rw [hopened.vertexCount_eq]
    omega
  obtain ⟨-, hspans, hvertex, -⟩ := linked_pushSteps hopened hfirst hout
  -- the mark finds the span of the move, because spans are numbered
  have hsize : m.index < out.1.track.spans.size := by
    rw [hspans, (s.onward_opened m).spans, h.size_eq, hindex]
    exact hdone
  have hnumber : out.1.track.spans[m.index].index = m.index := by
    simp only [hspans, (s.onward_opened m).spans]
    exact h.index_eq m.index _
  have hset := Track.mark_spans hsize hnumber ((s.opened m).track.vertexCount - 1) (out.2 + 1)
    s.clock (s.clock + m.profile.duration)
  refine ⟨{ out.1.track.spans[m.index] with
    firstVertex := (s.opened m).track.vertexCount - 1, endVertex := out.2 + 1,
    startTime := s.clock, endTime := s.clock + m.profile.duration }, ?_, hfirst, ?_, rfl, rfl, rfl⟩
  · simp only [hset, ← hindex, Array.getElem?_set_self]
  · rw [Track.mark_samples]
    exact hvertex

/-- Sampling a move lays out its span: from the last vertex before to the last one behind. -/
theorem IsIndexed.holds_sampleMove {total done : ℕ} {s s' : Sampler α} {m : Move α}
    (h : s.IsIndexed total done) (hends : s.track.EndsOwn) (hs' : s.sampleMove m = .ok s')
    (hindex : m.index = done) (hdone : done < total) :
    ∃ span, s'.track.spans[done]? = some span ∧
      span.Holds s'.track.entries (startedAt (ownPoints s.track.entries) [m])
        (m.points s.track.settings) := by
  obtain ⟨hopened, hstarted, -⟩ := endsOwn_opened hends m
  obtain ⟨hends', new, hnew, hpoints⟩ := adds_sampleMove hends hs'
  obtain ⟨span, hspan, hfirst, hend, -⟩ := h.noted_sampleMove hs' hindex hdone
  rw [← Track.length_entries] at hfirst hend
  -- a move has at least one point, so there is something new
  have hnew_pos : 0 < new.length := by
    apply List.length_pos_iff.2
    rintro rfl
    have hcount := congrArg List.length hpoints
    rw [Move.points, List.length_map, List.length_range] at hcount
    exact absurd hcount (Nat.ne_of_lt (m.stepCount_pos _))
  have hown := hopened.getElem?_last (by omega)
  have hown' := hends'.getElem?_last (by rw [hnew, List.length_append]; omega)
  refine ⟨span, hspan, ?_⟩
  rw [hnew] at hend hown' ⊢
  rw [← hstarted, ← hpoints]
  exact Span.holds_append hfirst hend hnew_pos hown hown'

end Sampler

end Toolpath
