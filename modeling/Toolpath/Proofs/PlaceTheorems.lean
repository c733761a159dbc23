import Toolpath.Proofs.SpanTheorems

/-!
# The places of samples

Adding a sample tells its place among the vertices before it is known where the open run will be
cut. That place is kept: whatever is added later and whenever runs are closed, the vertex there is
the sample itself, no copy of it, and the count of vertices is right at every moment
(`Track.holds_calls`).

Calls only append to the entries of a track (`Track.Linked.entries_calls`), copies included. A copy
goes in front of the sample that starts its run, so it never moves a sample that is there already.
-/

namespace Toolpath

variable {α : Type}

/-- A copy is left out of the samples that have been added. -/
theorem ownSamples_copy (copy : Option (Sample α)) (pace : Pace) :
    ownSamples (copy.toList.map (⟨·, pace, true⟩)) = [] := by
  cases copy <;> rfl

namespace Track

/-- The vertex at a place is an added sample: no copy, behind the samples added before it and in
front of those added after. -/
structure Holds (t : Track α) (place : ℕ) (before : List (Sample α × Pace)) (s : Sample α)
    (pace : Pace) (after : List (Sample α × Pace)) : Prop where
  vertex_eq : t.vertices[place]? = some (s.point, pace)
  entry_eq : t.entries[place]? = some ⟨s, pace, false⟩
  before_eq : ownSamples (t.entries.take place) = before
  after_eq : ownSamples (t.entries.drop (place + 1)) = after

namespace Linked

variable {t : Track α}

theorem call (h : t.Linked) (c : Call α) : (t.call c).Linked := by
  cases c with
  | add s pace => exact h.add s pace
  | close => exact h.close

theorem calls (h : t.Linked) (calls : List (Call α)) : (calls.foldl Track.call t).Linked := by
  induction calls generalizing t with
  | nil => exact h
  | cons c rest ih => exact ih (h.call c)

/-- The count of vertices is the count there will be once the open run is closed. -/
theorem vertexCount_eq_length (h : t.Linked) : t.vertexCount = t.close.vertices.length := by
  rw [h.vertexCount_eq, vertices_close, List.length_map, length_entries]

/-- The place that is told for a sample is behind all entries and the copy that may start its
run. -/
theorem entries_add_place (h : t.Linked) (s : Sample α) (pace : Pace) :
    ∃ front, (t.add s pace).1.entries = front ++ [⟨s, pace, false⟩] ∧
      front.length = (t.add s pace).2 ∧ ownSamples front = ownSamples t.entries := by
  obtain ⟨copy, hadd⟩ := h.entries_add s pace
  refine ⟨t.entries ++ copy.toList.map (⟨·, pace, true⟩), hadd, ?_, ?_⟩
  · have hplace := h.add_snd s pace
    rw [← length_entries, hadd, List.length_append, List.length_singleton] at hplace
    omega
  · rw [ownSamples_append, ownSamples_copy, List.append_nil]

/-- A call appends to the entries, and the sample it adds is all of it that is no copy. -/
theorem entries_call (h : t.Linked) (c : Call α) :
    ∃ back, (t.call c).entries = t.entries ++ back ∧ ownSamples back = c.added?.toList := by
  cases c with
  | add s pace =>
    obtain ⟨copy, hadd⟩ := h.entries_add s pace
    refine ⟨copy.toList.map (⟨·, pace, true⟩) ++ [⟨s, pace, false⟩], ?_, ?_⟩
    · rw [← List.append_assoc]
      exact hadd
    · rw [ownSamples_append, ownSamples_copy]
      rfl
  | close => exact ⟨[], by rw [List.append_nil]; exact t.entries_close, rfl⟩

/-- What is on a track stays in its place, and the samples of later calls go behind it. -/
theorem entries_calls (h : t.Linked) (calls : List (Call α)) :
    ∃ back, (calls.foldl Track.call t).entries = t.entries ++ back ∧
      ownSamples back = calls.filterMap Call.added? := by
  induction calls generalizing t with
  | nil => exact ⟨[], (List.append_nil _).symm, rfl⟩
  | cons c rest ih =>
    obtain ⟨first, hfirst, hown⟩ := h.entries_call c
    obtain ⟨back, hback, hown'⟩ := ih (h.call c)
    refine ⟨first ++ back, ?_, ?_⟩
    · rw [List.foldl_cons, hback, hfirst, List.append_assoc]
    · rw [ownSamples_append, hown, hown', List.filterMap_cons]
      cases c.added? <;> rfl

end Linked

/-- A closed track holds the sample of an entry in its midst. -/
theorem holds_of_entries_eq {t : Track α} {front back : List (Entry α)} {s : Sample α} {pace : Pace}
    (h : t.entries = front ++ ⟨s, pace, false⟩ :: back) :
    t.close.Holds front.length (ownSamples front) s pace (ownSamples back) := by
  have hentry : t.entries[front.length]? = some ⟨s, pace, false⟩ := by
    rw [h, List.getElem?_append_right le_rfl, Nat.sub_self]
    rfl
  constructor
  case vertex_eq => rw [vertices_close, List.getElem?_map, hentry]; rfl
  case entry_eq => rw [entries_close, hentry]
  case before_eq => rw [entries_close, h, List.take_left]
  case after_eq =>
    rw [entries_close, h, List.drop_append, List.drop_of_length_le (by omega),
      Nat.add_sub_cancel_left]
    rfl

/-- Samples are added to a new track and its runs are closed, in any order. At every moment the
count of vertices is the one there would be if the open run were closed, and the place told for a
sample is its place among the vertices in the end. -/
theorem holds_calls (settings : SamplingSettings α) :
    (∀ calls : List (Call α), (calls.foldl Track.call (empty settings)).vertexCount =
      (calls.foldl Track.call (empty settings)).close.vertices.length) ∧
    ∀ (before : List (Call α)) (s : Sample α) (pace : Pace) (after : List (Call α)),
      ((before ++ .add s pace :: after).foldl Track.call (empty settings)).close.Holds
        ((before.foldl Track.call (empty settings)).add s pace).2
        (before.filterMap Call.added?) s pace (after.filterMap Call.added?) := by
  have hempty : (empty settings).Linked := linked_empty settings
  refine ⟨fun calls => (hempty.calls calls).vertexCount_eq_length, ?_⟩
  intro before s pace after
  have hbefore : (before.foldl Track.call (empty settings)).Linked := hempty.calls before
  obtain ⟨entries, hentries, hentriesSamples⟩ := hempty.entries_calls before
  obtain ⟨front, hfront, hplace, hfrontSamples⟩ := hbefore.entries_add_place s pace
  obtain ⟨back, hback, hbackSamples⟩ := (hbefore.add s pace).entries_calls after
  -- what was there, the sample itself, and what the later calls append
  have hdone : ((before ++ .add s pace :: after).foldl Track.call (empty settings)).entries =
      front ++ ⟨s, pace, false⟩ :: back := by
    rw [List.foldl_append, List.foldl_cons]
    apply hback.trans
    rw [hfront, List.append_assoc]
    rfl
  have hsamples : ownSamples front = before.filterMap Call.added? := by
    rw [hfrontSamples, hentries, ownSamples_append, hentriesSamples]
    rfl
  have hholds := holds_of_entries_eq hdone
  rwa [hplace, hsamples, hbackSamples] at hholds

/-- Seven vertices are on the track, and the run of the next sample starts with a copy. -/
example :
    ((shortRunCalls.foldl Track.call (empty shortRuns)).add (sampleAt 4.0) .normal).2 = 8 := by
  decide +kernel

end Track

end Toolpath
