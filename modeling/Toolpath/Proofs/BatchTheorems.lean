import Mathlib.Data.List.Chain
import Mathlib.Data.List.Induction
import Toolpath.Scalar.Single
import Toolpath.Proofs.TrackTheorems

/-!
# The runs of a track

The runs of a track are batches of one polyline. They are read here as a list of entries, samples
with the pace of their run, in which the copies that continue a polyline in a new run are flagged
(`Run.entriesOf`). Leaving the copies out, `Run.ownSamples`, gives back what has been added.

* Adding a sample adds its entry, behind the entry of a copy where a new run starts
  (`Track.Linked.entries_add`).
* Whatever is added and whenever runs are closed, every run has room for its samples, follows the
  run in front of it, and holds the samples added to it at their pace (`Track.IsBatched`).
-/

namespace Toolpath

variable {α : Type}

/-! ## Entries -/

/-- A sample on a track. -/
structure Entry (α : Type) where
  sample : Sample α
  /-- The pace of the run. -/
  pace : Pace
  /-- Whether the sample is the copy that continues the run before. -/
  isCopy : Bool
  deriving DecidableEq

namespace Run

/-- The samples of a run; a run that continues another starts with a copy. -/
def entries (continues : Bool) (r : Run α) : List (Entry α) :=
  match r.samples.toList with
  | [] => []
  | first :: rest => ⟨first, r.pace, continues⟩ :: rest.map fun s => ⟨s, r.pace, false⟩

/-- The samples of runs, of which all but the first continue another. -/
def entriesOf : List (Run α) → List (Entry α)
  | [] => []
  | first :: rest => first.entries false ++ rest.flatMap (entries true)

end Run

/-- The samples that are no copies, with their paces. -/
def ownSamples (entries : List (Entry α)) : List (Sample α × Pace) :=
  (entries.filter fun e => !e.isCopy).map fun e => (e.sample, e.pace)

@[simp] theorem ownSamples_append (xs ys : List (Entry α)) :
    ownSamples (xs ++ ys) = ownSamples xs ++ ownSamples ys := by
  simp [ownSamples]

namespace Run

theorem entriesOf_append (runs : List (Run α)) (last : Run α) :
    entriesOf (runs ++ [last]) = entriesOf runs ++ last.entries !runs.isEmpty := by
  cases runs with
  | nil => simp [entriesOf]
  | cons first rest => simp [entriesOf]

theorem map_sample_entries (continues : Bool) (r : Run α) :
    (r.entries continues).map (·.sample) = r.samples.toList := by
  unfold entries
  split
  · simp [*]
  · simp [*, Function.comp_def]

theorem map_sample_entriesOf (runs : List (Run α)) :
    (entriesOf runs).map (·.sample) = runs.flatMap (·.samples.toList) := by
  cases runs with
  | nil => rfl
  | cons first rest =>
    rw [entriesOf, List.map_append, List.map_flatMap, List.flatMap_cons, map_sample_entries]
    simp only [map_sample_entries]

end Run

namespace Track

/-- The samples of a track, in the order the vertices have once the open run is closed. -/
def entries (t : Track α) : List (Entry α) := Run.entriesOf t.close.runs.toList

/-- All runs, the open one last. -/
def allRuns (t : Track α) : List (Run α) := t.runs.toList ++ [⟨t.openSamples, t.pace⟩]

theorem map_sample_entries (t : Track α) : t.entries.map (·.sample) = t.samples :=
  Run.map_sample_entriesOf _

theorem length_entries (t : Track α) : t.entries.length = t.samples.length := by
  rw [← t.map_sample_entries, List.length_map]

@[simp] theorem entries_close (t : Track α) : t.close.entries = t.entries := by
  rw [entries, close_close, entries]

theorem entries_of_fresh_empty {t : Track α} (h : t.fresh = #[]) :
    t.entries = Run.entriesOf t.runs.toList := by
  rw [entries, close_of_fresh_empty h]

namespace Linked

variable {t : Track α}

/-- A linked track has closed a run exactly when its open run has a seed. -/
theorem isEmpty_runs (h : t.Linked) : (!t.runs.toList.isEmpty) = t.seed.isSome := by
  cases hseed : t.seed with
  | none =>
    rw [h.runs_eq hseed]
    rfl
  | some s =>
    have hne : t.runs ≠ #[] := by
      intro hnil
      have hclosed := h.seed_eq
      rw [closedSamples, hnil, hseed] at hclosed
      contradiction
    simp [hne]

/-- The open run consists of the copy and the samples behind it. -/
theorem entries_open (h : t.Linked) :
    (Run.mk t.openSamples t.pace).entries (!t.runs.toList.isEmpty) =
      t.seed.toList.map (⟨·, t.pace, true⟩) ++ t.fresh.toList.map (⟨·, t.pace, false⟩) := by
  rw [h.isEmpty_runs, Run.entries, openSamples]
  cases t.seed with
  | none =>
    rcases hfresh : t.fresh.toList with _ | ⟨first, rest⟩
    · simp [hfresh]
    · simp [hfresh]
  | some s => simp

theorem entries_of_fresh (h : t.Linked) (hne : t.fresh ≠ #[]) :
    t.entries = Run.entriesOf t.runs.toList ++
      (t.seed.toList.map (⟨·, t.pace, true⟩) ++ t.fresh.toList.map (⟨·, t.pace, false⟩)) := by
  obtain ⟨last, hlast⟩ : ∃ last, t.fresh.back? = some last := by
    rw [← Option.isSome_iff_exists, Array.back?_isSome]
    exact hne
  rw [entries, close_of_back hlast, Array.toList_push, Run.entriesOf_append, h.entries_open]

/-- Adding a sample adds its entry. Where it starts a new run, a copy of the last sample stands
before it. -/
theorem entries_add (h : t.Linked) (s : Sample α) (pace : Pace) :
    ∃ copy : Option (Sample α), (t.add s pace).1.entries =
      t.entries ++ copy.toList.map (⟨·, pace, true⟩) ++ [⟨s, pace, false⟩] := by
  -- onto a track whose open run holds nothing but its seed
  have honto : ∀ u : Track α, u.Linked → u.fresh = #[] →
      { u with pace, fresh := u.fresh.push s }.entries =
        u.entries ++ u.seed.toList.map (⟨·, pace, true⟩) ++ [⟨s, pace, false⟩] := by
    intro u hu hfresh
    rw [(hu.push s pace).entries_of_fresh Array.push_ne_empty, entries_of_fresh_empty hfresh]
    simp [hfresh]
  unfold Track.add
  by_cases hclose : t.needsClose pace = true
  · rw [if_pos hclose]
    refine ⟨t.close.seed, ?_⟩
    rw [← t.entries_close]
    exact honto t.close h.close t.close_fresh
  · rw [if_neg hclose]
    by_cases hfresh : t.fresh = #[]
    · exact ⟨t.seed, honto t h hfresh⟩
    · -- the open run goes on, so its pace is the one of the sample
      have hpace : t.pace = pace := by
        by_contra hne
        have hsize : t.fresh.size ≠ 0 := fun hzero => hfresh (Array.size_eq_zero_iff.1 hzero)
        have hopen : t.openCount ≠ 0 := by
          unfold openCount
          omega
        exact hclose (by simp [needsClose, hopen, Ne.symm hne])
      refine ⟨none, ?_⟩
      rw [(h.push s pace).entries_of_fresh Array.push_ne_empty, h.entries_of_fresh hfresh, hpace]
      simp

/-- The copies aside, the closed runs and then the open one hold the samples of the track. -/
theorem ownSamples_allRuns (h : t.Linked) :
    ownSamples (Run.entriesOf t.allRuns) = ownSamples t.entries := by
  rw [allRuns, Run.entriesOf_append, h.entries_open]
  by_cases hfresh : t.fresh = #[]
  · rw [entries_of_fresh_empty hfresh, hfresh]
    cases t.seed <;> simp [ownSamples]
  · rw [h.entries_of_fresh hfresh]

theorem ownSamples_add (h : t.Linked) (s : Sample α) (pace : Pace) :
    ownSamples (t.add s pace).1.entries = ownSamples t.entries ++ [(s, pace)] := by
  obtain ⟨copy, hadd⟩ := h.entries_add s pace
  rw [hadd]
  cases copy <;> simp [ownSamples]

end Linked

end Track

/-! ## Runs that follow one another -/

/-- One run follows another: it starts with a copy of its last sample, and goes on from there. -/
structure Run.Follows (before r : Run α) : Prop where
  copy : r.samples[0]? = before.samples.back?
  longer : 2 ≤ r.samples.size

namespace Track

/-- The open run starts with a copy of the last sample of the last closed run. -/
theorem Linked.head_openSamples {t : Track α} (h : t.Linked) {last : Run α}
    (hlast : t.runs.back? = some last) : t.openSamples[0]? = last.samples.back? := by
  obtain ⟨init, hruns⟩ : ∃ init, t.runs.toList = init ++ [last] := by
    rw [← Array.getLast?_toList] at hlast
    exact List.getLast?_eq_some_iff.1 hlast
  have hmem : last ∈ t.runs := Array.mem_of_back? hlast
  obtain ⟨s, hs⟩ : ∃ s, last.samples.back? = some s := by
    rw [← Option.isSome_iff_exists, Array.back?_isSome]
    exact h.samples_ne last hmem
  have hseed : t.seed = some s := by
    rw [h.seed_eq, closedSamples, hruns, List.flatMap_append, List.getLast?_append,
      List.flatMap_singleton, Array.getLast?_toList, hs]
    rfl
  rw [openSamples, hseed, hs, ← Array.getElem?_toList]
  simp

/-- No run of a track exceeds the limit, and every run follows the one in front of it. -/
structure IsPacked (t : Track α) : Prop where
  linked : t.Linked
  size_le : ∀ r ∈ t.runs, r.samples.size ≤ t.settings.maxRunPoints
  open_le : t.openCount ≤ t.settings.maxRunPoints
  follows : t.runs.toList.IsChain Run.Follows

namespace IsPacked

variable {t : Track α}

theorem empty (settings : SamplingSettings α) : (Track.empty settings).IsPacked where
  linked := linked_empty settings
  size_le _ hr := absurd hr (Array.not_mem_empty _)
  open_le := Nat.zero_le _
  follows := .nil

/-- The run that is closed follows the one closed before. -/
theorem close (h : t.IsPacked) (hmax : 2 ≤ t.settings.maxRunPoints) : t.close.IsPacked := by
  rcases hback : t.fresh.back? with _ | last
  · rw [Array.back?_eq_none_iff] at hback
    rwa [close_of_fresh_empty hback]
  · have hsize : t.fresh.size ≠ 0 := by
      intro hzero
      rw [Array.size_eq_zero_iff] at hzero
      rw [hzero] at hback
      contradiction
    have hopen := Linked.openCount_eq t
    constructor
    case linked => exact h.linked.close
    case size_le =>
      intro r hr
      rw [close_settings]
      rw [close_of_back hback] at hr
      rcases Array.mem_push.1 hr with hr | rfl
      · exact h.size_le r hr
      · show t.openSamples.size ≤ _
        rw [← hopen]
        exact h.open_le
    case open_le =>
      rw [close_of_back hback]
      show 1 ≤ t.settings.maxRunPoints
      omega
    case follows =>
      rw [close_of_back hback, Array.toList_push, List.isChain_append]
      refine ⟨h.follows, .singleton _, ?_⟩
      intro before hbefore r hr
      obtain rfl : ⟨t.openSamples, t.pace⟩ = r := Option.some.inj hr
      rw [Array.getLast?_toList] at hbefore
      refine ⟨h.linked.head_openSamples hbefore, ?_⟩
      -- with a run before it the open run has its seed, and a fresh sample besides
      have hseed : t.seed.isSome = true := by
        rw [← h.linked.isEmpty_runs]
        have hne := Array.ne_empty_of_mem (Array.mem_of_back? hbefore)
        simp [hne]
      show 2 ≤ t.openSamples.size
      rw [← hopen, openCount, if_pos hseed]
      omega

theorem push (h : t.IsPacked) (hroom : t.openCount < t.settings.maxRunPoints) (s : Sample α)
    (pace : Pace) : { t with pace, fresh := t.fresh.push s }.IsPacked where
  linked := h.linked.push s pace
  size_le := h.size_le
  open_le := by
    unfold openCount at *
    rw [Array.size_push]
    exact hroom
  follows := h.follows

/-- A run that is full is closed before a sample is added. -/
theorem add (h : t.IsPacked) (hmax : 2 ≤ t.settings.maxRunPoints) (s : Sample α) (pace : Pace) :
    (t.add s pace).1.IsPacked := by
  unfold Track.add
  by_cases hclose : t.needsClose pace = true
  · rw [if_pos hclose]
    apply (h.close hmax).push
    rw [close_settings, openCount, close_fresh]
    split_ifs
    · exact hmax
    · exact Nat.zero_lt_of_lt hmax
  · rw [if_neg hclose]
    apply h.push
    by_contra hfull
    rw [not_lt] at hfull
    have hopen : t.openCount ≠ 0 := by omega
    exact hclose (by simp [needsClose, hopen, hfull])

end IsPacked

/-- What a track is like after samples have been added to it at their paces. -/
structure IsBatched (t : Track α) (limit : ℕ) (added : List (Sample α × Pace)) : Prop where
  size_pos : ∀ r ∈ t.runs, 1 ≤ r.samples.size
  size_le : ∀ r ∈ t.runs, r.samples.size ≤ limit
  /-- The points and the times of the closed runs, each read in a list of their own, are as many as
  have been counted. -/
  count_eq : t.vertices.length = t.closedCount ∧
    (t.closedSamples.map (·.time)).length = t.closedCount
  /-- Every closed run but the first follows the one before. -/
  follows : t.runs.toList.IsChain Run.Follows
  /-- So does the open run, as far as it has got. -/
  open_copy : ∀ last, t.runs.back? = some last → t.openSamples[0]? = last.samples.back?
  open_le : t.openSamples.size ≤ limit
  /-- Without the copies the runs hold what has been added, in order and each at its pace. -/
  own_eq : ownSamples (Run.entriesOf t.allRuns) = added

theorem IsPacked.isBatched {t : Track α} (h : t.IsPacked) :
    t.IsBatched t.settings.maxRunPoints (ownSamples t.entries) where
  size_pos r hr := Nat.pos_of_ne_zero fun hzero =>
    h.linked.samples_ne r hr (Array.size_eq_zero_iff.1 hzero)
  size_le := h.size_le
  count_eq := by
    rw [t.length_vertices, List.length_map, h.linked.closedCount_eq]
    exact ⟨rfl, rfl⟩
  follows := h.follows
  open_copy _ hlast := h.linked.head_openSamples hlast
  open_le := (Linked.openCount_eq t).symm.trans_le h.open_le
  own_eq := h.linked.ownSamples_allRuns

end Track

/-! ## Calls in any order -/

/-- A call on a track: a sample is added, or the open run is closed. -/
inductive Call (α : Type) where
  | add (s : Sample α) (pace : Pace)
  | close

namespace Call

/-- The sample that a call adds. -/
def added? : Call α → Option (Sample α × Pace)
  | add s pace => some (s, pace)
  | close => none

end Call

namespace Track

/-- The track after a call. -/
def call (t : Track α) : Call α → Track α
  | .add s pace => (t.add s pace).1
  | .close => t.close

theorem call_settings (t : Track α) (c : Call α) : (t.call c).settings = t.settings := by
  cases c with
  | add s pace => exact t.add_settings s pace
  | close => exact t.close_settings

/-- A call keeps the runs packed, and a sample is added behind all others. -/
theorem IsPacked.call {t : Track α} (h : t.IsPacked) (hmax : 2 ≤ t.settings.maxRunPoints)
    (c : Call α) : (t.call c).IsPacked ∧
      ownSamples (t.call c).entries = ownSamples t.entries ++ c.added?.toList := by
  cases c with
  | add s pace => exact ⟨h.add hmax s pace, h.linked.ownSamples_add s pace⟩
  | close =>
    refine ⟨h.close hmax, ?_⟩
    show ownSamples t.close.entries = _ ++ []
    rw [entries_close, List.append_nil]

theorem IsPacked.calls {t : Track α} (h : t.IsPacked) (hmax : 2 ≤ t.settings.maxRunPoints)
    (calls : List (Call α)) :
    (calls.foldl Track.call t).IsPacked ∧ (calls.foldl Track.call t).settings = t.settings ∧
      ownSamples (calls.foldl Track.call t).entries =
        ownSamples t.entries ++ calls.filterMap Call.added? := by
  induction calls generalizing t with
  | nil => exact ⟨h, rfl, (List.append_nil _).symm⟩
  | cons c rest ih =>
    obtain ⟨hpacked, hown⟩ := h.call hmax c
    have hsettings := t.call_settings c
    obtain ⟨hpacked', hsettings', hown'⟩ := ih hpacked (by rwa [hsettings])
    refine ⟨hpacked', hsettings'.trans hsettings, ?_⟩
    rw [List.foldl_cons, hown', hown, List.append_assoc, List.filterMap_cons]
    cases c.added? <;> rfl

/-- Whatever is added to a new track and whenever its runs are closed: no run is empty or exceeds
the limit, every run follows the one before it, the runs hold the samples in order and each at its
pace, and closing twice is closing once. -/
theorem isBatched_calls (settings : SamplingSettings α) (hmax : 2 ≤ settings.maxRunPoints)
    (calls : List (Call α)) :
    (calls.foldl Track.call (empty settings)).IsBatched settings.maxRunPoints
        (calls.filterMap Call.added?) ∧
      (calls.foldl Track.call (empty settings)).close.close =
        (calls.foldl Track.call (empty settings)).close := by
  obtain ⟨hpacked, hsettings, hown⟩ := (IsPacked.empty settings).calls hmax calls
  have hbatched := hpacked.isBatched
  rw [hsettings, hown] at hbatched
  exact ⟨hbatched, close_close _⟩

/-- A sample at the zero point. -/
def sampleAt (time : Float32) : Sample Float32 := ⟨.zero, time⟩

/-- Runs of two points: a change of the pace, a full run, and a run closed twice. -/
def shortRunCalls : List (Call Float32) :=
  [.add (sampleAt 0.0) .normal, .add (sampleAt 1.0) .rapid, .add (sampleAt 2.0) .rapid,
    .close, .close, .add (sampleAt 3.0) .normal]

/-- The settings for them. -/
def shortRuns : SamplingSettings Float32 := { SamplingSettings.default with maxRunPoints := 2 }

/-- Two runs of two points follow a run of one point. -/
theorem isBatched_calls_short : 2 ≤ shortRuns.maxRunPoints ∧
    (shortRunCalls.foldl Track.call (empty shortRuns)).IsBatched 2
      (shortRunCalls.filterMap Call.added?) ∧
    (shortRunCalls.foldl Track.call (empty shortRuns)).runs.map (·.samples.size) = #[1, 2, 2] := by
  have hmax : 2 ≤ shortRuns.maxRunPoints := by decide
  exact ⟨hmax, (isBatched_calls shortRuns hmax shortRunCalls).1, by decide +kernel⟩

end Track

end Toolpath
