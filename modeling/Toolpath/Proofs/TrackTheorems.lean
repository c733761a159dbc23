import Mathlib.Data.List.Basic
import Mathlib.Tactic.SplitIfs
import Mathlib.Tactic.ByContra
import Toolpath.Track

/-!
# What a track holds

A track is read as one list of samples, `Track.samples`: those of its runs, in the order of the
vertices, once the open run is closed. `Track.Linked` is the invariant that ties the bookkeeping
of the runs to that list; every action on a track keeps it.

* Adding a sample appends it, behind a copy of the last one where a new run starts
  (`Track.Linked.samples_add`).
* Closing changes nothing about the samples, and the counts are those of the list
  (`Track.Linked.vertexCount_eq`, `Track.Linked.add_snd`).
-/

namespace Toolpath

namespace Track

variable {α : Type}

/-- The samples of the closed runs, in the order of the vertices. -/
def closedSamples (t : Track α) : List (Sample α) := t.runs.toList.flatMap (·.samples.toList)

/-- Each of them gives a vertex. -/
theorem length_vertices (t : Track α) : t.vertices.length = t.closedSamples.length := by
  simp [vertices, closedSamples, List.length_flatMap]

/-- All samples, in the order the vertices have once the open run is closed. -/
def samples (t : Track α) : List (Sample α) := t.close.closedSamples

/-- The open run starts with a copy of the last closed sample, no closed run is empty, and the
closed vertices are counted. -/
structure Linked (t : Track α) : Prop where
  seed_eq : t.seed = t.closedSamples.getLast?
  samples_ne : ∀ r ∈ t.runs, r.samples ≠ #[]
  closedCount_eq : t.closedCount = t.closedSamples.length

/-! ## Closing -/

/-- With no new sample there is nothing to close. -/
theorem close_of_fresh_empty {t : Track α} (h : t.fresh = #[]) : t.close = t := by
  unfold close
  rw [h]
  rfl

/-- A track with new samples is closed by a run of all open ones, and its last sample is the seed of
the next. -/
theorem close_of_back {t : Track α} {last : Sample α} (h : t.fresh.back? = some last) :
    t.close =
      { t with
        runs := t.runs.push ⟨t.openSamples, t.pace⟩
        closedCount := t.closedCount + t.openSamples.size
        seed := some last
        fresh := #[] } := by
  unfold close
  rw [h]

/-- After closing there is nothing left to close. -/
theorem close_fresh (t : Track α) : t.close.fresh = #[] := by
  rcases h : t.fresh.back? with _ | last
  · rw [Array.back?_eq_none_iff] at h
    rw [close_of_fresh_empty h, h]
  · rw [close_of_back h]

@[simp] theorem close_close (t : Track α) : t.close.close = t.close :=
  close_of_fresh_empty t.close_fresh

@[simp] theorem close_settings (t : Track α) : t.close.settings = t.settings := by
  unfold close
  split <;> rfl

@[simp] theorem close_spans (t : Track α) : t.close.spans = t.spans := by
  unfold close
  split <;> rfl

@[simp] theorem samples_close (t : Track α) : t.close.samples = t.samples := by
  rw [samples, close_close, samples]

/-- With no new sample the seed does not count. -/
theorem samples_of_fresh_empty {t : Track α} (h : t.fresh = #[]) :
    t.samples = t.closedSamples := by
  rw [samples, close_of_fresh_empty h]

/-- Behind the closed samples stand the seed and the new ones. -/
theorem samples_of_fresh {t : Track α} (h : t.fresh ≠ #[]) :
    t.samples = t.closedSamples ++ (t.seed.toList ++ t.fresh.toList) := by
  obtain ⟨last, hlast⟩ : ∃ last, t.fresh.back? = some last := by
    rw [← Option.isSome_iff_exists, Array.back?_isSome]
    exact h
  rw [samples, close_of_back hlast]
  simp [closedSamples, openSamples]

/-- A fresh sample is the last one. -/
theorem samples_push (t : Track α) (s : Sample α) (pace : Pace) :
    { t with pace, fresh := t.fresh.push s }.samples =
      t.closedSamples ++ (t.seed.toList ++ (t.fresh.toList ++ [s])) := by
  rw [samples_of_fresh (Array.push_ne_empty)]
  simp [closedSamples]

/-! ## The invariant -/

/-- The empty track is linked. -/
theorem linked_empty (settings : SamplingSettings α) : (Track.empty settings).Linked where
  seed_eq := rfl
  samples_ne _ hr := absurd hr (Array.not_mem_empty _)
  closedCount_eq := rfl

namespace Linked

variable {t : Track α}

theorem openCount_eq (t : Track α) : t.openCount = t.openSamples.size := by
  unfold openCount openSamples
  cases t.seed with
  | none => simp
  | some s => simp

/-- Only a track without runs has no seed. -/
theorem runs_eq (h : t.Linked) (hseed : t.seed = none) : t.runs = #[] := by
  have hnil : t.closedSamples = [] := List.getLast?_eq_none_iff.1 (h.seed_eq.symm.trans hseed)
  rw [closedSamples, List.flatMap_eq_nil_iff] at hnil
  by_contra hne
  obtain ⟨r, hr⟩ := Array.exists_mem_of_ne_empty _ hne
  exact h.samples_ne r hr (Array.toList_eq_nil_iff.1 (hnil r (Array.mem_toList_iff.2 hr)))

/-- A track stays linked when it is closed. -/
theorem close (h : t.Linked) : t.close.Linked := by
  rcases hback : t.fresh.back? with _ | last
  · rw [Array.back?_eq_none_iff] at hback
    rwa [close_of_fresh_empty hback]
  · have hne : t.fresh ≠ #[] := by
      rw [← Array.back?_isSome, hback]
      rfl
    have hclosed : t.close.closedSamples = t.closedSamples ++ (t.seed.toList ++ t.fresh.toList) :=
      samples_of_fresh hne
    -- the samples of the open run follow those of the closed ones, as they did before
    constructor
    case seed_eq =>
      rw [hclosed, close_of_back hback, List.getLast?_append, List.getLast?_append,
        Array.getLast?_toList, hback]
      rfl
    case samples_ne =>
      intro r hr
      rw [close_of_back hback] at hr
      rcases Array.mem_push.1 hr with hr | rfl
      · exact h.samples_ne r hr
      · simp [openSamples, hne]
    case closedCount_eq =>
      rw [hclosed, close_of_back hback, List.length_append]
      show t.closedCount + t.openSamples.size = _
      rw [h.closedCount_eq, openSamples, Array.size_append, List.length_append,
        Array.length_toList]
      cases t.seed <;> rfl

/-- A track stays linked when a new sample is pushed. -/
theorem push (h : t.Linked) (s : Sample α) (pace : Pace) :
    { t with pace, fresh := t.fresh.push s }.Linked := ⟨h.seed_eq, h.samples_ne, h.closedCount_eq⟩

/-- A track stays linked when a sample is added. -/
theorem add (h : t.Linked) (s : Sample α) (pace : Pace) : (t.add s pace).1.Linked := by
  unfold Track.add
  split_ifs
  · exact h.close.push s pace
  · exact h.push s pace

/-- A track is empty exactly when it holds no sample. -/
theorem isEmpty_iff (h : t.Linked) : t.isEmpty = true ↔ t.samples = [] := by
  rw [Track.isEmpty, Bool.and_eq_true, beq_iff_eq, Array.isEmpty_iff, openCount_eq]
  constructor
  · rintro ⟨hruns, hopen⟩
    have hclosed : t.closedSamples = [] := by
      rw [closedSamples, hruns]
      rfl
    have hfresh : t.fresh = #[] := by
      rw [← Array.size_eq_zero_iff]
      rw [openSamples, Array.size_append] at hopen
      omega
    rw [samples_of_fresh_empty hfresh, hclosed]
  · intro hsamples
    have hfresh : t.fresh = #[] := by
      by_contra hne
      rw [samples_of_fresh hne, List.append_eq_nil_iff, List.append_eq_nil_iff] at hsamples
      exact hne (Array.toList_eq_nil_iff.1 hsamples.2.2)
    rw [samples_of_fresh_empty hfresh] at hsamples
    have hseed : t.seed = none := by
      rw [h.seed_eq, hsamples]
      rfl
    refine ⟨h.runs_eq hseed, ?_⟩
    rw [openSamples, hseed, hfresh]
    rfl

/-- The count of vertices is the count of samples. -/
theorem vertexCount_eq (h : t.Linked) : t.vertexCount = t.samples.length := by
  unfold vertexCount
  by_cases hfresh : t.fresh = #[]
  · rw [samples_of_fresh_empty hfresh, ← h.closedCount_eq, if_pos (Array.isEmpty_iff.2 hfresh)]
  · have hne : ¬ t.fresh.isEmpty = true := fun hempty => hfresh (Array.isEmpty_iff.1 hempty)
    rw [samples_of_fresh hfresh, if_neg hne, openCount, h.closedCount_eq, List.length_append,
      List.length_append, Array.length_toList]
    cases t.seed <;> rfl

/-- Adding a sample appends it. Where it starts a new run, a copy of the last sample stands before
it. -/
theorem samples_add (h : t.Linked) (s : Sample α) (pace : Pace) :
    ∃ copy : Option (Sample α), (∀ last, copy = some last → t.samples.getLast? = some last) ∧
      (t.add s pace).1.samples = t.samples ++ copy.toList ++ [s] := by
  -- onto a track whose open run holds nothing but its seed
  have honto : ∀ u : Track α, u.Linked → u.fresh = #[] →
      ∃ copy : Option (Sample α), (∀ last, copy = some last → u.samples.getLast? = some last) ∧
        { u with pace, fresh := u.fresh.push s }.samples = u.samples ++ copy.toList ++ [s] := by
    intro u hu hfresh
    refine ⟨u.seed, ?_, ?_⟩
    · intro last hseed
      rw [samples_of_fresh_empty hfresh, ← hu.seed_eq, hseed]
    · rw [samples_push, samples_of_fresh_empty hfresh, hfresh, List.append_assoc]
      rfl
  unfold Track.add
  by_cases hclose : t.needsClose pace = true
  · rw [if_pos hclose]
    have hclosed := honto t.close h.close t.close_fresh
    rwa [samples_close] at hclosed
  · rw [if_neg hclose]
    by_cases hfresh : t.fresh = #[]
    · exact honto t h hfresh
    · refine ⟨none, fun _ hlast => by contradiction, ?_⟩
      rw [samples_push, samples_of_fresh hfresh, List.append_assoc, List.append_assoc]
      simp

/-- Each sample that is added counts. -/
theorem length_lt_add (h : t.Linked) (s : Sample α) (pace : Pace) :
    t.samples.length < (t.add s pace).1.samples.length := by
  obtain ⟨copy, -, hadd⟩ := h.samples_add s pace
  rw [hadd, List.length_append, List.length_append, List.length_singleton]
  omega

/-- An added sample is told to be the last vertex. -/
theorem add_snd (h : t.Linked) (s : Sample α) (pace : Pace) :
    (t.add s pace).2 + 1 = (t.add s pace).1.samples.length := by
  have hpush : ∀ u : Track α, u.closedCount + { u with pace, fresh := u.fresh.push s }.openCount - 1
      + 1 = { u with pace, fresh := u.fresh.push s }.vertexCount := by
    intro u
    have hne : ¬ (u.fresh.push s).isEmpty = true := by simp
    rw [vertexCount, if_neg hne, openCount, Array.size_push]
    show _ = u.closedCount + _
    omega
  rw [← (h.add s pace).vertexCount_eq]
  by_cases hclose : t.needsClose pace = true
  · rw [Track.add, if_pos hclose]
    exact hpush t.close
  · rw [Track.add, if_neg hclose]
    exact hpush t

end Linked

/-! ## What the actions leave alone -/

@[simp] theorem add_settings (t : Track α) (s : Sample α) (pace : Pace) :
    (t.add s pace).1.settings = t.settings := by
  unfold add
  split_ifs <;> simp

@[simp] theorem add_spans (t : Track α) (s : Sample α) (pace : Pace) :
    (t.add s pace).1.spans = t.spans := by
  unfold add
  split_ifs <;> simp

@[simp] theorem mark_settings (t : Track α) (index firstVertex endVertex : Nat)
    (startTime endTime : α) :
    (t.mark index firstVertex endVertex startTime endTime).settings = t.settings := by
  unfold mark
  split
  · rfl
  · split_ifs <;> rfl

@[simp] theorem mark_samples (t : Track α) (index firstVertex endVertex : Nat)
    (startTime endTime : α) :
    (t.mark index firstVertex endVertex startTime endTime).samples = t.samples := by
  unfold mark
  split
  · rfl
  · split_ifs
    · unfold samples closedSamples close
      dsimp only
      split <;> rfl
    · rfl

/-- A mark leaves a track linked. -/
theorem Linked.mark {t : Track α} (h : t.Linked) (index firstVertex endVertex : Nat)
    (startTime endTime : α) : (t.mark index firstVertex endVertex startTime endTime).Linked := by
  unfold Track.mark
  split
  · exact h
  · split_ifs
    · exact ⟨h.seed_eq, h.samples_ne, h.closedCount_eq⟩
    · exact h

/-- Marking the span that a place belongs to sets its vertices and its times. -/
theorem mark_spans {t : Track α} {index : Nat} (hi : index < t.spans.size)
    (hindex : t.spans[index].index = index) (firstVertex endVertex : Nat) (startTime endTime : α) :
    (t.mark index firstVertex endVertex startTime endTime).spans =
      t.spans.set index
        { t.spans[index] with firstVertex, endVertex, startTime, endTime } hi := by
  unfold mark
  rw [Array.getElem?_eq_getElem hi]
  dsimp only
  rw [if_pos hindex]
  dsimp only
  rw [Array.setIfInBounds_def, dif_pos hi]

end Track

/-! ## Bisection -/

/-- Bisection finds the boundary of a test that holds up to it and fails from there on. -/
theorem lt_boundaryIn_iff {test : Nat → Bool}
    (hmono : ∀ i j, i ≤ j → test j = true → test i = true) {base size : Nat}
    (hbelow : ∀ i < base, test i = true) (habove : ∀ i, base + size ≤ i → test i = false)
    (i : Nat) : i < boundaryIn test base size ↔ test i = true := by
  fun_induction boundaryIn test base size with
  | case1 base =>
    -- nothing is left to decide
    constructor
    · exact hbelow i
    · intro hi
      by_contra hge
      rw [habove i (by omega)] at hi
      contradiction
  | case2 base hbase _ =>
    constructor
    · intro hi
      exact hmono i base (by omega) hbase
    · intro hi
      by_contra hge
      rw [habove i (by omega)] at hi
      contradiction
  | case3 base hbase _ =>
    constructor
    · exact hbelow i
    · intro hi
      by_contra hge
      exact hbase (hmono base i (by omega) hi)
  | case4 base size _ _ half ih =>
    apply ih
    · intro j hj
      split_ifs at hj with hmid
      · exact hmono j _ (by omega) hmid
      · exact hbelow j hj
    · intro j hj
      split_ifs at hj with hmid
      · exact habove j (by omega)
      · by_contra htest
        rw [Bool.not_eq_false] at htest
        exact hmid (hmono _ j (by omega) htest)

/-- The boundary lies within the stretch that is searched. -/
theorem boundaryIn_le (test : Nat → Bool) (base size : Nat) :
    boundaryIn test base size ≤ base + size := by
  fun_induction boundaryIn test base size with
  | case1 base => omega
  | case2 base => omega
  | case3 base => omega
  | case4 base size _ _ half ih =>
    split_ifs at ih ⊢ <;> omega

theorem leadingCount_le {β : Type} (xs : Array β) (test : β → Bool) :
    leadingCount xs test ≤ xs.size := by
  have hle := boundaryIn_le (fun i => (xs[i]?.map test).getD false) 0 xs.size
  rwa [Nat.zero_add] at hle

theorem leadingCount_map {β γ : Type} (xs : Array β) (g : β → γ) (test : γ → Bool) :
    leadingCount (xs.map g) test = leadingCount xs fun x => test (g x) := by
  unfold leadingCount
  rw [Array.size_map]
  congr 1
  funext i
  rw [Array.getElem?_map, Option.map_map]
  rfl

/-- The leading count of a test that no element passes after one that fails it. -/
theorem lt_leadingCount_iff {β : Type} {xs : Array β} {test : β → Bool}
    (hmono : ∀ (i j : Nat) (_ : i < xs.size) (_ : j < xs.size), i ≤ j →
      test xs[j] = true → test xs[i] = true) {i : Nat} (hi : i < xs.size) :
    i < leadingCount xs test ↔ test xs[i] = true := by
  have htest : ∀ (j : Nat) (_ : j < xs.size), (xs[j]?.map test).getD false = test xs[j] := by
    intro j hj
    rw [Array.getElem?_eq_getElem hj, Option.map_some, Option.getD_some]
  have houtside : ∀ j, xs.size ≤ j → (xs[j]?.map test).getD false = false := by
    intro j hj
    rw [Array.getElem?_eq_none hj, Option.map_none, Option.getD_none]
  rw [← htest i hi]
  apply lt_boundaryIn_iff
  · intro j k hjk hk
    rcases Nat.lt_or_ge k xs.size with hlt | hge
    · rw [htest k hlt] at hk
      rw [htest j (by omega)]
      exact hmono j k (by omega) hlt hjk hk
    · rw [houtside k hge] at hk
      contradiction
  · intro j hj
    exact absurd hj (Nat.not_lt_zero j)
  · intro j hj
    exact houtside j (by omega)

end Toolpath
