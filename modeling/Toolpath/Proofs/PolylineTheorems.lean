import Toolpath.Proofs.BatchTheorems
import Toolpath.Proofs.SingleOrderTheorems

/-!
# Places on a polyline

Looking a time up in a track picks a run first and then searches inside it. Here the runs are
forgotten: `placeAt?` is the lookup in one list of samples in the order of their times. Only the
last sample before the time and the first one that is not before it matter to it.

* A run answers as the list of its samples does, and a row of runs that follow one another as all
  their samples do (`Run.positionAt?_eq_placeAt?`, `Track.positionAt?_eq_placeAt?`).
* The copies that continue a polyline in a new run change no answer (`IsEcho.placeAt?_eq`).
* So the limit of the runs, the paces and the moments at which runs are closed are invisible to the
  lookup (`Track.positionAt?_calls`).
-/

namespace Toolpath

open Scalar

variable {α : Type}

/-! ## Copies -/

/-- Samples with copies of some of them right behind them. -/
inductive IsEcho : List (Sample α) → List (Sample α) → Prop where
  | nil : IsEcho [] []
  | add {echoed samples : List (Sample α)} (h : IsEcho echoed samples) (s : Sample α) :
      IsEcho (echoed ++ [s]) (samples ++ [s])
  | copy {echoed samples : List (Sample α)} (h : IsEcho echoed samples) (last : Sample α)
      (hlast : echoed.getLast? = some last) : IsEcho (echoed ++ [last]) samples

namespace IsEcho

variable {echoed samples : List (Sample α)}

/-- The first sample that passes a test, and the last one, are the same among the copies. -/
theorem find?_eq (h : IsEcho echoed samples) (test : Sample α → Bool) :
    echoed.find? test = samples.find? test ∧
      echoed.reverse.find? test = samples.reverse.find? test := by
  induction h with
  | nil => exact ⟨rfl, rfl⟩
  | add _ s ih =>
    simp only [List.find?_append, List.reverse_append, List.reverse_singleton]
    rw [ih.1, ih.2]
    exact ⟨rfl, rfl⟩
  | copy _ last hlast ih =>
    obtain ⟨init, rfl⟩ := List.getLast?_eq_some_iff.1 hlast
    rw [← ih.1, ← ih.2]
    simp only [List.find?_append, List.reverse_append, List.reverse_singleton, List.find?_singleton]
    -- the copy passes where the one right in front of it does
    cases test last <;> simp

theorem mem_iff (h : IsEcho echoed samples) (s : Sample α) : s ∈ echoed ↔ s ∈ samples := by
  induction h with
  | nil => rfl
  | add _ x ih => rw [List.mem_append, List.mem_append, ih]
  | copy _ last hlast ih =>
    rw [List.mem_append, ← ih, List.mem_singleton]
    exact or_iff_left_of_imp fun heq => heq ▸ List.mem_of_getLast? hlast

end IsEcho

namespace Track

/-- A call adds its sample, and perhaps a copy of the one before. -/
theorem Linked.isEcho_call {t : Track α} (h : t.Linked) {samples : List (Sample α)}
    (hecho : IsEcho t.samples samples) (c : Call α) :
    (t.call c).Linked ∧
      IsEcho (t.call c).samples (samples ++ (c.added?.map Prod.fst).toList) := by
  cases c with
  | add s pace =>
    refine ⟨h.add s pace, ?_⟩
    obtain ⟨copy, hcopy, hadd⟩ := h.samples_add s pace
    show IsEcho (t.add s pace).1.samples _
    rw [hadd]
    cases copy with
    | none =>
      rw [Option.toList_none, List.append_nil]
      exact hecho.add s
    | some last => exact (hecho.copy last (hcopy last rfl)).add s
  | close =>
    refine ⟨h.close, ?_⟩
    show IsEcho t.close.samples (samples ++ [])
    rwa [samples_close, List.append_nil]

/-- After any calls the samples are those added, with copies. -/
theorem Linked.isEcho_calls {t : Track α} (h : t.Linked) {samples : List (Sample α)}
    (hecho : IsEcho t.samples samples) (calls : List (Call α)) :
    IsEcho (calls.foldl Track.call t).samples
      (samples ++ (calls.filterMap Call.added?).map Prod.fst) := by
  induction calls generalizing t samples with
  | nil =>
    rw [List.filterMap_nil, List.map_nil, List.append_nil]
    exact hecho
  | cons c rest ih =>
    obtain ⟨hlinked, hcall⟩ := h.isEcho_call hecho c
    have hrest := ih hlinked hcall
    rw [List.append_assoc] at hrest
    rw [List.foldl_cons, List.filterMap_cons]
    cases hadded : c.added? <;> rw [hadded] at hrest <;> exact hrest

end Track

section Place

variable [Scalar α]

/-- The place at a time on the way from one sample to another. -/
def Sample.placeTowards (before after : Sample α) (time : α) : Vec3 α :=
  before.point.lerp after.point ((time - before.time) / (after.time - before.time))

/-- The place between two samples; the place of the only one where one of them is missing. -/
def placeBetween? (before? after? : Option (Sample α)) (time : α) : Option (Vec3 α) :=
  match before?, after? with
  | none, only? => only?.map (·.point)
  | some only, none => some only.point
  | some before, some after => some (before.placeTowards after time)

/-- The place at a time on a polyline: between the last sample before the time and the first one
that is not, the first sample where none is before, and the last one where all are. -/
def placeAt? (samples : List (Sample α)) (time : α) : Option (Vec3 α) :=
  placeBetween? (samples.reverse.find? fun s => decide (s.time < time))
    (samples.find? fun s => !decide (s.time < time)) time

/-- Whether samples are in the order of their times. -/
def IsOrdered (samples : List (Sample α)) : Prop := samples.Pairwise (·.time ≤ ·.time)

/-- Whether samples are those before a time and then those that are not. -/
structure IsCut (samples early late : List (Sample α)) (time : α) : Prop where
  eq_append : samples = early ++ late
  early_lt : ∀ s ∈ early, s.time < time
  late_not_lt : ∀ s ∈ late, ¬ s.time < time

/-! ## Where a time cuts a polyline -/

omit [Scalar α] in
theorem find?_eq_head? {samples : List (Sample α)} {test : Sample α → Bool}
    (h : ∀ s ∈ samples, test s = true) : samples.find? test = samples.head? := by
  cases samples with
  | nil => rfl
  | cons s rest => rw [List.find?_cons_of_pos (h s List.mem_cons_self), List.head?_cons]

namespace IsCut

variable {samples early late : List (Sample α)} {time : α}

/-- A cut shows the two samples that the lookup is about. -/
theorem placeAt?_eq (h : IsCut samples early late time) :
    placeAt? samples time = placeBetween? early.getLast? late.head? time := by
  have hearly : ∀ s ∈ early.reverse, decide (s.time < time) = true := by
    intro s hs
    exact decide_eq_true (h.early_lt s (List.mem_reverse.1 hs))
  have hlate : ∀ s ∈ late, (!decide (s.time < time)) = true := by
    intro s hs
    simp [h.late_not_lt s hs]
  have hbefore : (samples.reverse.find? fun s => decide (s.time < time)) = early.getLast? := by
    have hnone : (late.reverse.find? fun s => decide (s.time < time)) = none := by
      rw [List.find?_eq_none]
      intro s hs
      simpa using h.late_not_lt s (List.mem_reverse.1 hs)
    rw [h.eq_append, List.reverse_append, List.find?_append, hnone, find?_eq_head? hearly,
      List.head?_reverse]
    rfl
  have hafter : (samples.find? fun s => !decide (s.time < time)) = late.head? := by
    have hnone : (early.find? fun s => !decide (s.time < time)) = none := by
      rw [List.find?_eq_none]
      intro s hs
      simpa using h.early_lt s hs
    rw [h.eq_append, List.find?_append, hnone, find?_eq_head? hlate]
    rfl
  rw [placeAt?, hbefore, hafter]

/-- The cut is where samples cease to be before the time. -/
theorem lt_length_iff (h : IsCut samples early late time) {i : ℕ} {s : Sample α}
    (hs : samples[i]? = some s) : i < early.length ↔ s.time < time := by
  rw [h.eq_append] at hs
  by_cases hlt : i < early.length
  · rw [List.getElem?_append_left hlt] at hs
    exact iff_of_true hlt (h.early_lt s (List.mem_of_getElem? hs))
  · rw [List.getElem?_append_right (Nat.le_of_not_lt hlt)] at hs
    exact iff_of_false hlt (h.late_not_lt s (List.mem_of_getElem? hs))

/-- More samples that are not before the time do not move the cut. -/
theorem append (h : IsCut samples early late time) {rest : List (Sample α)}
    (hrest : ∀ s ∈ rest, ¬ s.time < time) : IsCut (samples ++ rest) early (late ++ rest) time where
  eq_append := by rw [h.eq_append, List.append_assoc]
  early_lt := h.early_lt
  late_not_lt s hs := (List.mem_append.1 hs).elim (h.late_not_lt s) (hrest s)

/-- Samples in front that are all before the time do not move the cut. -/
theorem prepend (h : IsCut samples early late time) {front : List (Sample α)}
    (hfront : ∀ s ∈ front, s.time < time) :
    IsCut (front ++ samples) (front ++ early) late time where
  eq_append := by rw [h.eq_append, List.append_assoc]
  early_lt s hs := (List.mem_append.1 hs).elim (hfront s) (h.early_lt s)
  late_not_lt := h.late_not_lt

end IsCut

end Place

variable [Scalar α] [NumberOrder α]

/-- Any time cuts samples that are in order. -/
theorem exists_isCut {samples : List (Sample α)} (hordered : IsOrdered samples) (time : α) :
    ∃ early late, IsCut samples early late time := by
  induction samples with
  | nil => exact ⟨[], [], rfl, by simp, by simp⟩
  | cons s rest ih =>
    obtain ⟨hhead, hrest⟩ := List.pairwise_cons.1 hordered
    by_cases hs : s.time < time
    · obtain ⟨early, late, hcut⟩ := ih hrest
      have hsingle : ∀ x ∈ [s], x.time < time := by simpa using hs
      exact ⟨s :: early, late, hcut.prepend hsingle⟩
    · refine ⟨[], s :: rest, rfl, by simp, ?_⟩
      rintro x (_ | ⟨_, hx⟩)
      · exact hs
      · intro hlt
        exact hs (num_lt_of_le_of_lt (hhead x hx) hlt)

/-- Samples in order give a place at any time. -/
theorem exists_placeAt? {samples : List (Sample α)} (hordered : IsOrdered samples)
    (hne : samples ≠ []) (time : α) : ∃ place, placeAt? samples time = some place := by
  obtain ⟨early, late, hcut⟩ := exists_isCut hordered time
  rw [hcut.placeAt?_eq]
  rcases hearly : early.getLast? with _ | before
  · rw [List.getLast?_eq_none_iff] at hearly
    rw [hcut.eq_append, hearly, List.nil_append] at hne
    obtain ⟨after, rest, rfl⟩ := List.exists_cons_of_ne_nil hne
    exact ⟨after.point, rfl⟩
  · cases late <;> exact ⟨_, rfl⟩

/-! ## One run -/

namespace Run

/-- Between two samples around a time the ratio is defined. -/
theorem between_eq {before after : Sample α} {time : α} (hbefore : before.time < time)
    (hafter : time ≤ after.time) :
    between before after time = before.placeTowards after time := by
  unfold between Sample.placeTowards
  rw [if_pos (num_lt_of_lt_of_le hbefore hafter)]

/-- Bisection stops at the cut. -/
theorem leadingCount_eq {r : Run α} {early late : List (Sample α)} {time : α}
    (hordered : IsOrdered r.samples.toList) (hcut : IsCut r.samples.toList early late time) :
    leadingCount r.samples (fun s => decide (s.time < time)) = early.length := by
  have hsize : r.samples.size = early.length + late.length := by
    rw [← Array.length_toList, hcut.eq_append, List.length_append]
  have hcount : ∀ (i : ℕ) (hi : i < r.samples.size),
      i < leadingCount r.samples (fun s => decide (s.time < time)) ↔ i < early.length := by
    intro i hi
    rw [lt_leadingCount_iff _ hi, decide_eq_true_iff]
    · have hget : r.samples.toList[i]? = some r.samples[i] := by
        rw [Array.getElem?_toList, Array.getElem?_eq_getElem hi]
      exact (hcut.lt_length_iff hget).symm
    · intro j k hj hk hjk hlt
      rw [decide_eq_true_iff] at hlt ⊢
      rcases Nat.eq_or_lt_of_le hjk with rfl | hjk
      · exact hlt
      · have hle := List.pairwise_iff_getElem.1 hordered j k hj hk hjk
        rw [Array.getElem_toList, Array.getElem_toList] at hle
        exact num_lt_of_le_of_lt hle hlt
  have hle := leadingCount_le r.samples (fun s => decide (s.time < time))
  -- two counts with the same indices below them are equal
  rcases Nat.lt_trichotomy (leadingCount r.samples fun s => decide (s.time < time)) early.length
    with hlt | heq | hgt
  · exact absurd ((hcount _ (by omega)).2 hlt) (Nat.lt_irrefl _)
  · exact heq
  · exact absurd ((hcount _ (by omega)).1 hgt) (Nat.lt_irrefl _)

/-- A run answers as the list of its samples does. -/
theorem positionAt?_eq_placeAt? {r : Run α} {time : α} (hordered : IsOrdered r.samples.toList)
    (hnumber : ∀ s ∈ r.samples.toList, IsNumber s.time) (htime : IsNumber time) :
    r.positionAt? time = placeAt? r.samples.toList time := by
  obtain ⟨early, late, hcut⟩ := exists_isCut hordered time
  have hbefore : (if early.length = 0 then none else r.samples[early.length - 1]?) =
      early.getLast? := by
    rw [← Array.getElem?_toList, hcut.eq_append]
    by_cases hnil : early.length = 0
    · rw [if_pos hnil, List.length_eq_zero_iff.1 hnil]
      rfl
    · rw [if_neg hnil, List.getElem?_append_left (by omega), List.getLast?_eq_getElem?]
  have hafter : r.samples[early.length]? = late.head? := by
    rw [← Array.getElem?_toList, hcut.eq_append, List.getElem?_append_right (Nat.le_refl _),
      Nat.sub_self, List.head?_eq_getElem?]
  unfold positionAt?
  rw [leadingCount_eq hordered hcut]
  dsimp only
  rw [hbefore, hafter, hcut.placeAt?_eq]
  rcases hlate : late with _ | ⟨after, rest⟩
  · -- all samples are before the time
    rw [← Array.getLast?_toList, hcut.eq_append, hlate, List.append_nil]
    cases early.getLast? <;> rfl
  · rcases hearly : early.getLast? with _ | before
    · rfl
    · have hmem : after ∈ late := hlate ▸ List.mem_cons_self
      have hnum := hnumber after (hcut.eq_append ▸ List.mem_append_right _ hmem)
      have hlt := hcut.early_lt before (List.mem_of_getLast? hearly)
      have hle := num_le_of_not_lt hnum htime (hcut.late_not_lt after hmem)
      show some (between before after time) = _
      rw [between_eq hlt hle]
      rfl

end Run

/-! ## Runs that follow one another -/

/-- Whether a run lasts until a time. -/
def Run.lasts (r : Run α) (time : α) : Bool :=
  (r.samples.back?.map fun s => decide (time ≤ s.time)).getD false

/-- The lookup in a row of runs. -/
def positionIn? (runs : List (Run α)) (time : α) : Option (Vec3 α) :=
  match runs.find? (·.lasts time) with
  | some r => r.positionAt? time
  | none => runs.getLast?.bind (·.positionAt? time)

omit [NumberOrder α] in
theorem Track.positionAt?_eq_positionIn? (t : Track α) (time : α) :
    t.positionAt? time = positionIn? t.runs.toList time := by
  unfold positionIn?
  rw [Array.find?_toList, Array.getLast?_toList]
  rfl

section Row

variable {r : Run α} {rest : List (Run α)} {time : α} {last : Sample α}

omit [NumberOrder α] in
theorem Run.lasts_iff (hlast : r.samples.toList.getLast? = some last) :
    r.lasts time = true ↔ time ≤ last.time := by
  rw [Array.getLast?_toList] at hlast
  rw [lasts, hlast, Option.map_some, Option.getD_some, decide_eq_true_iff]

omit [NumberOrder α] in
theorem positionIn?_of_lasts (h : r.lasts time = true) :
    positionIn? (r :: rest) time = r.positionAt? time := by
  unfold positionIn?
  rw [List.find?_cons, h]

omit [NumberOrder α] in
theorem positionIn?_singleton (r : Run α) (time : α) :
    positionIn? [r] time = r.positionAt? time := by
  unfold positionIn?
  cases h : r.lasts time <;> simp [h]

omit [NumberOrder α] in
theorem positionIn?_of_not_lasts (h : ¬ r.lasts time = true) (hrest : rest ≠ []) :
    positionIn? (r :: rest) time = positionIn? rest time := by
  rw [Bool.not_eq_true] at h
  unfold positionIn?
  rw [List.find?_cons, h, List.getLast?_cons_of_ne_nil hrest]

/-- Where the last of ordered samples is before a time, all of them are. -/
theorem IsOrdered.before_of_last {samples : List (Sample α)} (hordered : IsOrdered samples)
    (hlast : samples.getLast? = some last) (hlt : last.time < time) :
    ∀ s ∈ samples, s.time < time := by
  obtain ⟨init, rfl⟩ := List.getLast?_eq_some_iff.1 hlast
  intro s hs
  rcases List.mem_append.1 hs with hs | hs
  · have hle := (List.pairwise_append.1 hordered).2.2 s hs last List.mem_cons_self
    exact num_lt_of_le_of_lt hle hlt
  · rwa [List.mem_singleton.1 hs]

/-- Samples that go on from a copy of the last one in front answer for both. -/
theorem placeAt?_append_of_copy {front behind : List (Sample α)} (hordered : IsOrdered behind)
    (hfront : ∀ s ∈ front, s.time < time) (hlast : front.getLast? = some last)
    (hcopy : behind.head? = some last) :
    placeAt? (front ++ behind) time = placeAt? behind time := by
  obtain ⟨early, late, hcut⟩ := exists_isCut hordered time
  have hlt := hfront last (List.mem_of_getLast? hlast)
  -- the copy is before the time as well, so the lookup is over behind the one in front
  have hne : early ≠ [] := by
    rintro rfl
    rw [hcut.eq_append, List.nil_append] at hcopy
    exact hcut.late_not_lt last (List.mem_of_head? hcopy) hlt
  rw [(hcut.prepend hfront).placeAt?_eq, hcut.placeAt?_eq, List.getLast?_append_of_ne_nil _ hne]

/-- Samples up to one that is not before the time answer alone. -/
theorem placeAt?_append_of_le {front behind : List (Sample α)}
    (hordered : IsOrdered (front ++ behind)) (hlast : front.getLast? = some last)
    (hle : time ≤ last.time) : placeAt? (front ++ behind) time = placeAt? front time := by
  obtain ⟨hfront, -, hcross⟩ := List.pairwise_append.1 hordered
  have hmem := List.mem_of_getLast? hlast
  have hbehind : ∀ s ∈ behind, ¬ s.time < time := by
    intro s hs hlt
    exact num_not_le_of_lt hlt (num_le_trans hle (hcross last hmem s hs))
  obtain ⟨early, late, hcut⟩ := exists_isCut hfront time
  -- the last sample in front is late already, so none behind it is asked for
  have hne : late ≠ [] := by
    rintro rfl
    rw [hcut.eq_append, List.append_nil] at hmem
    exact num_not_le_of_lt (hcut.early_lt last hmem) hle
  rw [(hcut.append hbehind).placeAt?_eq, hcut.placeAt?_eq, List.head?_append_of_ne_nil _ hne]

end Row

/-- A row of runs that follow one another answers as all their samples do. -/
theorem positionIn?_eq_placeAt? {runs : List (Run α)} {time : α}
    (hfollows : runs.IsChain Run.Follows) (hne : ∀ r ∈ runs, r.samples ≠ #[])
    (hordered : IsOrdered (runs.flatMap (·.samples.toList)))
    (hnumber : ∀ s ∈ runs.flatMap (·.samples.toList), IsNumber s.time) (htime : IsNumber time) :
    positionIn? runs time = placeAt? (runs.flatMap (·.samples.toList)) time := by
  induction runs with
  | nil => rfl
  | cons r rest ih =>
    rw [List.flatMap_cons] at hordered hnumber ⊢
    obtain ⟨hown, hrest, -⟩ := List.pairwise_append.1 hordered
    have hnumown : ∀ s ∈ r.samples.toList, IsNumber s.time := fun s hs =>
      hnumber s (List.mem_append_left _ hs)
    have hplace := Run.positionAt?_eq_placeAt? hown hnumown htime
    obtain ⟨last, hlast⟩ : ∃ last, r.samples.toList.getLast? = some last := by
      rw [← Option.isSome_iff_exists, Array.getLast?_toList, Array.back?_isSome]
      exact hne r List.mem_cons_self
    -- either the first run is the one that is picked, or all its samples are before the time
    by_cases hlasts : r.lasts time = true
    · have hle := (Run.lasts_iff hlast).1 hlasts
      rw [positionIn?_of_lasts hlasts, hplace, placeAt?_append_of_le hordered hlast hle]
    · have hnotle : ¬ time ≤ last.time := fun hle => hlasts ((Run.lasts_iff hlast).2 hle)
      have hlt := num_lt_of_not_le htime (hnumown last (List.mem_of_getLast? hlast)) hnotle
      have hbefore := IsOrdered.before_of_last hown hlast hlt
      cases rest with
      | nil => rw [positionIn?_singleton, hplace, List.flatMap_nil, List.append_nil]
      | cons next rest =>
        obtain ⟨hnext, hchain⟩ := List.isChain_cons_cons.1 hfollows
        have hcopy : ((next :: rest).flatMap (·.samples.toList)).head? = some last := by
          have hfirst := hnext.copy
          rw [← Array.getLast?_toList, hlast, ← Array.getElem?_toList, ← List.head?_eq_getElem?]
            at hfirst
          rw [List.flatMap_cons, List.head?_append, hfirst]
          rfl
        rw [positionIn?_of_not_lasts hlasts (List.cons_ne_nil _ _),
          placeAt?_append_of_copy hrest hbefore hlast hcopy]
        apply ih hchain _ hrest
        · intro s hs
          exact hnumber s (List.mem_append_right _ hs)
        · intro x hx
          exact hne x (List.mem_cons_of_mem _ hx)

/-- A track answers as the samples of its closed runs do. -/
theorem Track.positionAt?_eq_placeAt? {t : Track α} (h : t.IsPacked)
    (hordered : IsOrdered t.closedSamples) (hnumber : ∀ s ∈ t.closedSamples, IsNumber s.time)
    {time : α} (htime : IsNumber time) :
    t.positionAt? time = placeAt? t.closedSamples time := by
  rw [t.positionAt?_eq_positionIn?]
  have hne : ∀ r ∈ t.runs.toList, r.samples ≠ #[] := fun r hr =>
    h.linked.samples_ne r (Array.mem_toList_iff.1 hr)
  exact positionIn?_eq_placeAt? h.follows hne hordered hnumber htime

/-! ## Tracks after any calls -/

namespace IsEcho

variable {echoed samples : List (Sample α)}

omit [NumberOrder α] in
theorem isOrdered (h : IsEcho echoed samples) (hordered : IsOrdered samples)
    (hnumber : ∀ s ∈ samples, IsNumber s.time) : IsOrdered echoed := by
  induction h with
  | nil => exact hordered
  | add hecho s ih =>
    obtain ⟨hinit, -, hlast⟩ := List.pairwise_append.1 hordered
    refine List.pairwise_append.2 ⟨ih hinit fun x hx => hnumber x (List.mem_append_left _ hx),
      List.pairwise_singleton _ _, ?_⟩
    intro x hx
    exact hlast x ((hecho.mem_iff x).1 hx)
  | copy hecho last hlast ih =>
    have hold := ih hordered hnumber
    refine List.pairwise_append.2 ⟨hold, List.pairwise_singleton _ _, ?_⟩
    intro x hx y hy
    rw [List.mem_singleton.1 hy]
    obtain ⟨init, rfl⟩ := List.getLast?_eq_some_iff.1 hlast
    rcases List.mem_append.1 hx with hx | hx
    · exact (List.pairwise_append.1 hold).2.2 x hx last List.mem_cons_self
    · rw [List.mem_singleton.1 hx]
      exact hnumber last ((hecho.mem_iff last).1 (List.mem_append_right _ List.mem_cons_self))

omit [NumberOrder α] in
/-- Copies are invisible to the lookup. -/
theorem placeAt?_eq (h : IsEcho echoed samples) (time : α) :
    placeAt? echoed time = placeAt? samples time := by
  unfold placeAt?
  rw [(h.find?_eq _).1, (h.find?_eq _).2]

end IsEcho

namespace Track

/-- After any calls the track answers as the samples added to it do. -/
theorem positionAt?_close_calls (settings : SamplingSettings α) (hmax : 2 ≤ settings.maxRunPoints)
    (calls : List (Call α)) {samples : List (Sample α)}
    (hcalls : (calls.filterMap Call.added?).map Prod.fst = samples) (hordered : IsOrdered samples)
    (hnumber : ∀ s ∈ samples, IsNumber s.time) {time : α} (htime : IsNumber time) :
    (calls.foldl Track.call (empty settings)).close.positionAt? time = placeAt? samples time := by
  obtain ⟨hpacked, hsettings, -⟩ := (IsPacked.empty settings).calls hmax calls
  have hecho := (linked_empty settings).isEcho_calls .nil calls
  rw [List.nil_append, hcalls] at hecho
  have hclosed := hpacked.close (by rw [hsettings]; exact hmax)
  rw [positionAt?_eq_placeAt? hclosed (hecho.isOrdered hordered hnumber)
    (fun s hs => hnumber s ((hecho.mem_iff s).1 hs)) htime]
  exact hecho.placeAt?_eq time

/-- Two tracks with the same samples answer alike, whatever the limits and paces of their runs and
whenever runs are closed: with the place on the polyline of these samples. -/
theorem positionAt?_calls {settings settings' : SamplingSettings α}
    (hmax : 2 ≤ settings.maxRunPoints) (hmax' : 2 ≤ settings'.maxRunPoints)
    {calls calls' : List (Call α)} {samples : List (Sample α)}
    (hcalls : (calls.filterMap Call.added?).map Prod.fst = samples)
    (hcalls' : (calls'.filterMap Call.added?).map Prod.fst = samples) (hne : samples ≠ [])
    (hordered : IsOrdered samples) (hnumber : ∀ s ∈ samples, IsNumber s.time) {time : α}
    (htime : IsNumber time) :
    ∃ place, placeAt? samples time = some place ∧
      (calls.foldl Track.call (empty settings)).close.positionAt? time = some place ∧
      (calls'.foldl Track.call (empty settings')).close.positionAt? time = some place := by
  obtain ⟨place, hplace⟩ := exists_placeAt? hordered hne time
  refine ⟨place, hplace, ?_, ?_⟩
  · rw [positionAt?_close_calls settings hmax calls hcalls hordered hnumber htime, hplace]
  · rw [positionAt?_close_calls settings' hmax' calls' hcalls' hordered hnumber htime, hplace]

/-- A sample on the first axis, at its time. -/
def sampleAlong (time : Float32) : Sample Float32 := ⟨⟨time, 0.0, 0.0⟩, time⟩

/-- Four samples, two of them at one time. -/
def alongSamples : List (Sample Float32) :=
  [sampleAlong 0.0, sampleAlong 1.0, sampleAlong 1.0, sampleAlong 2.0]

/-- The samples in runs of one pace. -/
def alongCalls : List (Call Float32) := alongSamples.map (.add · .normal)

/-- The samples with a run closed in front of each, in changing paces. -/
def splitCalls : List (Call Float32) :=
  [.close, .add (sampleAlong 0.0) .normal, .close, .add (sampleAlong 1.0) .rapid, .close, .close,
    .add (sampleAlong 1.0) .normal, .close, .add (sampleAlong 2.0) .normal]

/-- Between the second of the samples at one time and the last. -/
theorem positionAt?_calls_along :
    2 ≤ (SamplingSettings.default (α := Float32)).maxRunPoints ∧ 2 ≤ shortRuns.maxRunPoints ∧
      IsOrdered alongSamples ∧
      (alongCalls.foldl Track.call (empty .default)).close.positionAt? 1.5 =
        some ⟨1.5, 0.0, 0.0⟩ ∧
      (splitCalls.foldl Track.call (empty shortRuns)).close.positionAt? 1.5 =
        some ⟨1.5, 0.0, 0.0⟩ := by
  have hmax : 2 ≤ (SamplingSettings.default (α := Float32)).maxRunPoints := by decide
  have hmax' : 2 ≤ shortRuns.maxRunPoints := by decide
  have hordered : IsOrdered alongSamples := by
    unfold IsOrdered
    decide +kernel
  have hnumber : ∀ s ∈ alongSamples, IsNumber s.time := by
    unfold IsNumber
    decide +kernel
  have htime : IsNumber (1.5 : Float32) := by
    unfold IsNumber
    decide +kernel
  have hplace : placeAt? alongSamples 1.5 = some ⟨1.5, 0.0, 0.0⟩ := by decide +kernel
  have hcalls : (alongCalls.filterMap Call.added?).map Prod.fst = alongSamples := rfl
  have hcalls' : (splitCalls.filterMap Call.added?).map Prod.fst = alongSamples := rfl
  obtain ⟨place, heq, halong, hsplit⟩ := positionAt?_calls hmax hmax' hcalls hcalls'
    (List.cons_ne_nil _ _) hordered hnumber htime
  rw [hplace] at heq
  exact ⟨hmax, hmax', hordered, halong.trans heq.symm, hsplit.trans heq.symm⟩

end Track

end Toolpath
