import Toolpath.Proofs.LayoutTheorems
import Toolpath.Proofs.LookupTheorems
import Toolpath.Proofs.OutcomeTheorems

/-!
# Lines behind a program

The machine stands still at the end of a chain, so what it has done by then hangs on nothing that
comes later. When more lines follow a program, all its chains but the last stay as they were
planned, and so do the samples and spans that they have left on the track. Only the last chain may
go on, and is planned anew (`Simulation.GoesOn`).

* The path goes on behind the moves that are there (`exists_path_append`), and it is split at the
  same places up to the last chain (`exists_unplanned_append`).
* The sampler finds more spans on the track, and leaves those of later moves alone: all that it
  does is the same, whatever these spans are (`Sampler.SharesSpans`).
-/

namespace Toolpath

/-! ## Splitting a longer list -/

section Split

variable {β : Type} {r : β → β → Bool}

/-- What follows goes into the open stretch or behind it. -/
theorem exists_splitBy_loop (a : β) (g : List β) (gs : List (List β)) (m : List β) :
    ∃ next rest, List.splitBy.loop r m a g gs = gs.reverse ++ next :: rest ∧
      (a :: g).reverse <+: next := by
  induction m generalizing a g gs with
  | nil =>
    exact ⟨(a :: g).reverse, [], by rw [List.splitBy.loop, List.reverse_cons], List.prefix_rfl⟩
  | cons b m ih =>
    rw [List.splitBy.loop]
    split
    · obtain ⟨next, rest, hloop, hprefix⟩ := ih b (a :: g) gs
      rw [List.reverse_cons] at hprefix
      exact ⟨next, rest, hloop, (List.prefix_append _ _).trans hprefix⟩
    · obtain ⟨next, rest, hloop, -⟩ := ih b [] ((a :: g).reverse :: gs)
      rw [List.reverse_cons (a := (a :: g).reverse), List.append_assoc] at hloop
      exact ⟨(a :: g).reverse, next :: rest, hloop, List.prefix_rfl⟩

/-- Whatever follows, the stretches before the open one stay. -/
theorem exists_splitBy_loop_append (l : List β) (a : β) (g : List β) (gs : List (List β))
    (m : List β) : ∃ front last next rest, List.splitBy.loop r l a g gs = front ++ [last] ∧
      List.splitBy.loop r (l ++ m) a g gs = front ++ next :: rest ∧ last <+: next := by
  induction l generalizing a g gs with
  | nil =>
    obtain ⟨next, rest, hloop, hprefix⟩ := exists_splitBy_loop (r := r) a g gs m
    exact ⟨gs.reverse, (a :: g).reverse, next, rest, by rw [List.splitBy.loop, List.reverse_cons],
      hloop, hprefix⟩
  | cons b l ih =>
    rw [List.cons_append, List.splitBy.loop, List.splitBy.loop]
    split
    · exact ih b (a :: g) gs
    · exact ih b [] ((a :: g).reverse :: gs)

/-- A longer list is split at the same places, up to its last stretch, which may go on. -/
theorem exists_splitBy_append {l : List β} (hl : l ≠ []) (m : List β) :
    ∃ front last next rest, l.splitBy r = front ++ [last] ∧
      (l ++ m).splitBy r = front ++ next :: rest ∧ last <+: next := by
  obtain ⟨a, l, rfl⟩ := List.exists_cons_of_ne_nil hl
  exact exists_splitBy_loop_append l a [] [] m

end Split

variable {α : Type} [Scalar α]

/-! ## The path of a longer program -/

/-- A run adds moves behind those that are there. -/
theorem Interpretation.exists_path_run {σ : Type} (s : Settings α) (listen : σ → Move α → σ)
    (i : Interpretation α σ) (p : Program) :
    ∃ later, (run s listen i p).path.toList = i.path.toList ++ later := by
  induction p using List.reverseRecOn with
  | nil => exact ⟨[], (List.append_nil _).symm⟩
  | append_singleton p b ih =>
    obtain ⟨later, hlater⟩ := ih
    rw [run_concat]
    unfold step
    dsimp only
    cases ((run s listen i p).machine.execute s b).move? with
    | none => exact ⟨later, hlater⟩
    | some move =>
      dsimp only
      rw [Array.toList_push, hlater, List.append_assoc]
      exact ⟨_, rfl⟩

/-- More lines add moves behind those that are there. -/
theorem exists_path_append (s : Settings α) (p q : Program) :
    ∃ later, (interpret s (p ++ q)).path.toList = (interpret s p).path.toList ++ later := by
  have hrun : interpret s (p ++ q) =
      (interpret s p).run s Track.enter q := List.foldl_append
  rw [hrun]
  exact Interpretation.exists_path_run s Track.enter (interpret s p) q

/-- A program that moves has a last chain, and only this one may go on. -/
theorem exists_unplanned_append {s : Settings α} {p : Program} (hp : unplanned s p ≠ [])
    (q : Program) : ∃ front last resumed rest, unplanned s p = front ++ [last] ∧
      unplanned s (p ++ q) = front ++ resumed :: rest ∧ last.moves <+: resumed.moves := by
  obtain ⟨later, hlater⟩ := exists_path_append s p q
  have hpath : (interpret s p).path.toList ≠ [] := by
    intro hnil
    rw [unplanned, hnil] at hp
    exact hp rfl
  obtain ⟨front, last, next, rest, hsplit, hsplit', hprefix⟩ :=
    exists_splitBy_append (r := Move.flowsInto) hpath later
  refine ⟨front.map (Chain.limited · s.machine.maxAcceleration),
    .limited last s.machine.maxAcceleration, .limited next s.machine.maxAcceleration,
    rest.map (Chain.limited · s.machine.maxAcceleration), ?_, ?_, hprefix.map _⟩
  · rw [unplanned, Chain.ofPath_eq_map, hsplit, List.map_append]
    rfl
  · rw [unplanned, Chain.ofPath_eq_map, hlater, hsplit', List.map_append]
    rfl

/-- The spans of the moves that are there come first. -/
theorem spans_interpret_append (s : Settings α) (p q : Program) {i : ℕ}
    (hi : i < (interpret s p).path.size) :
    (interpret s (p ++ q)).heard.spans[i]? = (interpret s p).heard.spans[i]? := by
  obtain ⟨later, hlater⟩ := exists_path_append s p q
  rw [spans_interpret, spans_interpret, hlater, List.map_append, List.getElem?_toArray,
    List.getElem?_toArray, List.getElem?_append_left]
  rwa [List.length_map, Array.length_toList]

/-! ## Sampling onto a track with other spans -/

/-- A track with other spans. -/
def Track.withSpans {α : Type} (t : Track α) (spans : Array (Span α)) : Track α := { t with spans }

namespace Track

variable {α : Type} (t : Track α) (spans : Array (Span α))

/-- Closing a track does not see its spans. -/
theorem close_withSpans : (t.withSpans spans).close = t.close.withSpans spans := by
  unfold close withSpans
  dsimp only
  split <;> rfl

/-- Adding a sample does not see the spans. -/
theorem add_withSpans (s : Sample α) (pace : Pace) :
    (t.withSpans spans).add s pace = ((t.add s pace).1.withSpans spans, (t.add s pace).2) := by
  have hneeds : (t.withSpans spans).needsClose pace = t.needsClose pace := rfl
  unfold add
  rw [hneeds]
  split_ifs
  · rw [close_withSpans]
    rfl
  · rfl

/-- The entries of a track do not hang on its spans. -/
theorem entries_withSpans : (t.withSpans spans).entries = t.entries := by
  unfold entries
  rw [close_withSpans]
  rfl

/-- A mark touches nothing but the spans. -/
theorem mark_eq_withSpans (index firstVertex endVertex : ℕ) (startTime endTime : α) :
    t.mark index firstVertex endVertex startTime endTime =
      t.withSpans (t.mark index firstVertex endVertex startTime endTime).spans := by
  unfold mark
  split
  · rfl
  · split_ifs <;> rfl

/-- What a mark makes of the span at its place hangs on this span alone. -/
theorem mark_getElem?_self (index firstVertex endVertex : ℕ) (startTime endTime : α) :
    (t.mark index firstVertex endVertex startTime endTime).spans[index]? =
      t.spans[index]?.map fun span => if span.index = index then
        { span with firstVertex, endVertex, startTime, endTime } else span := by
  unfold mark
  split
  case h_1 hnone => rw [hnone, Option.map_none]
  case h_2 span hsome =>
    obtain ⟨hlt, -⟩ := Array.getElem?_eq_some_iff.1 hsome
    rw [hsome, Option.map_some]
    split_ifs
    · exact Array.getElem?_setIfInBounds_self_of_lt hlt
    · exact hsome

end Track

namespace Sampler

/-- A sampler that sees other spans on the track, but the same first ones. -/
structure SharesSpans {α : Type} (shared : ℕ) (s s' : Sampler α) : Prop where
  track : s'.track = s.track.withSpans s'.track.spans
  clock : s'.clock = s.clock
  box : s'.box = s.box
  sampleCount : s'.sampleCount = s.sampleCount
  spans : ∀ i < shared, s'.track.spans[i]? = s.track.spans[i]?

namespace SharesSpans

variable {shared : ℕ} {s s' : Sampler α}

omit [Scalar α] in
theorem settings_eq (h : s.SharesSpans shared s') : s'.track.settings = s.track.settings := by
  rw [h.track]
  rfl

omit [Scalar α] in
theorem entries_eq (h : s.SharesSpans shared s') : s'.track.entries = s.track.entries := by
  rw [h.track, Track.entries_withSpans]

omit [Scalar α] in
theorem vertexCount_eq (h : s.SharesSpans shared s') :
    s'.track.vertexCount = s.track.vertexCount := by
  rw [h.track]
  rfl

omit [Scalar α] in
theorem setClock (h : s.SharesSpans shared s') (clock : α) :
    SharesSpans shared { s with clock } { s' with clock } :=
  ⟨h.track, rfl, h.box, h.sampleCount, h.spans⟩

/-- Both samplers push a sample alike. -/
theorem push (h : s.SharesSpans shared s') (x : Sample α) (pace : Pace) :
    (s.push x pace).1.SharesSpans shared (s'.push x pace).1 ∧
      (s'.push x pace).2 = (s.push x pace).2 := by
  have hadd : s'.track.add x pace = ((s.track.add x pace).1.withSpans s'.track.spans,
      (s.track.add x pace).2) := by
    rw [h.track, Track.add_withSpans]
    rfl
  have hfirst : (s'.push x pace).1.track = (s.track.add x pace).1.withSpans s'.track.spans :=
    congrArg Prod.fst hadd
  have hsecond : (s'.push x pace).2 = (s.track.add x pace).2 := congrArg Prod.snd hadd
  refine ⟨⟨?_, h.clock, ?_, ?_, ?_⟩, hsecond⟩
  · rw [hfirst]
    rfl
  · show s'.box.add x.point = s.box.add x.point
    rw [h.box]
  · show s'.sampleCount + 1 = s.sampleCount + 1
    rw [h.sampleCount]
  · intro i hi
    rw [(onward_push s' x pace).spans, (onward_push s x pace).spans]
    exact h.spans i hi

/-- Both samplers open a move alike. -/
theorem opened (h : s.SharesSpans shared s') (m : Move α) :
    (s.opened m).SharesSpans shared (s'.opened m) := by
  have hempty : s'.track.isEmpty = s.track.isEmpty := by
    rw [h.track]
    rfl
  unfold Sampler.opened
  rw [hempty, h.clock]
  split_ifs
  · exact (h.push _ m.pace).1
  · exact h

omit [Scalar α] in
/-- A mark reads and sets one span, which both see or which neither counts among the first ones. -/
theorem mark (h : s.SharesSpans shared s') (clock : α) (index firstVertex endVertex : ℕ)
    (startTime endTime : α) :
    SharesSpans shared
      { s with clock, track := s.track.mark index firstVertex endVertex startTime endTime }
      { s' with clock, track := s'.track.mark index firstVertex endVertex startTime endTime } := by
  refine ⟨?_, rfl, h.box, h.sampleCount, ?_⟩
  · rw [Track.mark_eq_withSpans s'.track, Track.mark_eq_withSpans s.track, h.track]
    rfl
  · intro i hi
    by_cases hne : i = index
    · subst hne
      rw [Track.mark_getElem?_self, Track.mark_getElem?_self, h.spans i hi]
    · rw [Track.mark_getElem?_of_ne _ hne, Track.mark_getElem?_of_ne _ hne]
      exact h.spans i hi

/-- Both samplers sample a move alike. -/
theorem sampleMove (h : s.SharesSpans shared s') {m : Move α} {t : Sampler α}
    (ht : s.sampleMove m = .ok t) : ∃ t', s'.sampleMove m = .ok t' ∧ t.SharesSpans shared t' := by
  obtain ⟨out, hout, rfl⟩ := sampleMove_eq_ok.1 ht
  have hopened := h.opened m
  -- the steps add the same samples, and tell the same vertex
  have hsteps : ∃ out', (List.range (m.stepCount s.track.settings)).foldlM
      (fun u j => pushStep m s.clock (m.stepCount s.track.settings) (j + 1) u.1)
      (s'.opened m, (s'.opened m).track.vertexCount - 1) = .ok out' ∧
      out.1.SharesSpans shared out'.1 ∧ out'.2 = out.2 := by
    rw [← List.map_id (List.range (m.stepCount s.track.settings))]
    refine foldlM_follows (g := id)
      (R := fun u u' : Sampler α × ℕ => u.1.SharesSpans shared u'.1 ∧ u'.2 = u.2) ?_
      ⟨hopened, congrArg (· - 1) hopened.vertexCount_eq⟩ hout
    intro u u' j v hu hv
    obtain ⟨passage, hpassage, rfl⟩ := pushStep_eq_ok.1 hv
    exact ⟨_, pushStep_eq_ok.2 ⟨passage, hpassage, rfl⟩, hu.1.push _ m.pace⟩
  obtain ⟨out', hout', hlast, hvertex⟩ := hsteps
  refine ⟨_, sampleMove_eq_ok.2 ⟨out', by rw [h.settings_eq, h.clock]; exact hout', rfl⟩, ?_⟩
  rw [h.clock, hvertex, hopened.vertexCount_eq]
  exact hlast.mark _ _ _ _ _ _

/-- Both samplers dwell alike. -/
theorem dwell (h : s.SharesSpans shared s') (point : Vec3 α) (pace : Pace) :
    (s.dwell point pace).SharesSpans shared (s'.dwell point pace) := by
  unfold Sampler.dwell
  rw [h.settings_eq]
  induction List.range s.track.settings.dwellSamples generalizing s s' with
  | nil => exact h
  | cons _ rest ih =>
    rw [List.foldl_cons, List.foldl_cons, h.clock, h.settings_eq]
    exact ih ((h.setClock _).push _ pace).1

/-- Both samplers sample a chain alike. -/
theorem sampleChain (h : s.SharesSpans shared s') {c : Chain α} {t : Sampler α}
    (ht : s.sampleChain c = .ok t) :
    ∃ t', s'.sampleChain c = .ok t' ∧ t.SharesSpans shared t' := by
  obtain ⟨u, hu, rfl⟩ := sampleChain_eq_ok.1 ht
  obtain ⟨u', hu', hlast⟩ := foldlM_follows (g := id) (R := SharesSpans shared)
    (k := Sampler.sampleMove) (fun _ _ _ _ hs hstep => hs.sampleMove hstep) h hu
  rw [List.map_id] at hu'
  refine ⟨_, sampleChain_eq_ok.2 ⟨u', hu', rfl⟩, ?_⟩
  cases c.moves.getLast? with
  | none => exact hlast
  | some last => exact hlast.dwell last.target last.pace

/-- Both samplers sample chains alike. -/
theorem sampleChains (h : s.SharesSpans shared s') {chains : List (Chain α)} {t : Sampler α}
    (ht : chains.foldlM Sampler.sampleChain s = .ok t) :
    ∃ t', chains.foldlM Sampler.sampleChain s' = .ok t' ∧ t.SharesSpans shared t' := by
  obtain ⟨t', ht', hlast⟩ := foldlM_follows (g := id) (R := SharesSpans shared)
    (k := Sampler.sampleChain) (fun _ _ _ _ hs hstep => hs.sampleChain hstep) h ht
  rw [List.map_id] at ht'
  exact ⟨t', ht', hlast⟩

end SharesSpans

/-- Sampling starts alike, whatever lines follow. -/
theorem sharesSpans_start (s : Settings α) (p q : Program) :
    (Sampler.start (interpret s p).heard).SharesSpans (interpret s p).path.size
      (.start (interpret s (p ++ q)).heard) where
  track := by
    show (interpret s (p ++ q)).heard = (interpret s p).heard.withSpans _
    rw [heard_interpret, heard_interpret]
    rfl
  clock := rfl
  box := rfl
  sampleCount := rfl
  spans _ hi := spans_interpret_append s p q hi

end Sampler

/-! ## Simulations -/

section Stop

variable {s : Settings α} {p : Program} {sim : Simulation α}

/-- Behind any of its chains the sampler has stopped, and what is on the track by then stays. -/
theorem exists_stop (h : simulate s p = .ok sim) {front back : List (Chain α)}
    (hchains : sim.chains = front ++ back) :
    ∃ u, front.foldlM Sampler.sampleChain (.start (interpret s p).heard) = .ok u ∧
      u.track.entries <+: sim.track.entries ∧
      ownPoints u.track.entries = Sampler.startedAt [] (front.flatMap Chain.moves) ++
        front.flatMap (·.points s.sampling) ∧
      ∀ i < (front.flatMap Chain.moves).length, sim.track.spans[i]? = u.track.spans[i]? := by
  obtain ⟨sampler, hsampled, htrack, hreplanned⟩ := sampled_simulate h
  obtain ⟨hends, hnil, hsettings⟩ := endsOwn_start s p
  have hnumbered : IsNumbered 0 (sim.chains.flatMap Chain.moves) := by
    have hpath := isNumbered_interpret s p
    rw [Chain.flatMap_ofPath] at hpath
    exact hpath.replanned hreplanned
  rw [hchains, List.flatMap_append] at hnumbered
  obtain ⟨-, hlater⟩ := hnumbered.append
  rw [Nat.zero_add] at hlater
  rw [hchains, List.foldlM_append, bind_eq_ok] at hsampled
  obtain ⟨u, hu, hrest⟩ := hsampled
  -- the sampler in between has done the chains in front; those behind only append
  have hdraws := Sampler.draws_sampleChains hends hu
  have hextends := Sampler.extends_sampleChains hdraws.ends hrest hlater
  refine ⟨u, hu, ?_, ?_, ?_⟩
  · obtain ⟨new, hnew⟩ := hextends.entries
    rw [htrack, Track.entries_close, hnew]
    exact List.prefix_append _ _
  · rw [hdraws.points_eq, hnil, hsettings]
  · intro i hi
    rw [htrack, Track.close_spans]
    exact hextends.spans i hi

end Stop

/-- A simulation goes on from another, of a program that the lines of `q` follow: what had come to
a stop before the last chain stays as it was. -/
structure Simulation.GoesOn (s : Settings α) (p q : Program) (sim sim' : Simulation α) : Prop where
  /-- All chains but the last are planned alike. In the place of the last one stands a chain that
  starts with its moves, and this chain is planned instead. -/
  chains : sim.chains ≠ [] → ∃ last resumed planned rest,
    (unplanned s p).getLast? = some last ∧
    (unplanned s (p ++ q))[sim.chains.dropLast.length]? = some resumed ∧
    last.moves <+: resumed.moves ∧ resumed.plan = .ok planned ∧
    sim'.chains = sim.chains.dropLast ++ planned :: rest
  /-- The samples of the chains before the last, and of the stops behind them, come first. -/
  samples : ∃ front : List (Entry α), front <+: sim.track.entries ∧ front <+: sim'.track.entries ∧
    ownPoints front = Sampler.startedAt [] (sim.chains.dropLast.flatMap Chain.moves) ++
      sim.chains.dropLast.flatMap (·.points s.sampling)
  /-- The moves of the chains before the last have the same spans. -/
  spans : ∀ i < (sim.chains.dropLast.flatMap Chain.moves).length, ∃ span,
    sim.track.spans[i]? = some span ∧ sim'.track.spans[i]? = some span

/-- Plans of chains that are put together are those of the parts. -/
theorem exists_plans_append {front back planned : List (Chain α)}
    (h : List.Forall₂ (fun c plan => c.plan = .ok plan) (front ++ back) planned) :
    ∃ first next, planned = first ++ next ∧
      List.Forall₂ (fun c plan => c.plan = .ok plan) front first ∧
      List.Forall₂ (fun c plan => c.plan = .ok plan) back next := by
  have hfirst := List.forall₂_take front.length h
  have hnext := List.forall₂_drop front.length h
  rw [List.take_left] at hfirst
  rw [List.drop_left] at hnext
  exact ⟨_, _, (List.take_append_drop front.length planned).symm, hfirst, hnext⟩

/-- Chains that are planned alike come to the same. -/
theorem plans_unique {chains planned planned' : List (Chain α)}
    (h : List.Forall₂ (fun c plan => c.plan = .ok plan) chains planned)
    (h' : List.Forall₂ (fun c plan => c.plan = .ok plan) chains planned') : planned = planned' := by
  have hunique : Relator.RightUnique fun c plan : Chain α => c.plan = .ok plan :=
    fun c plan plan' hplan hplan' => Except.ok.inj (hplan.symm.trans hplan')
  exact List.right_unique_forall₂' hunique h h'

section Kept

variable {s : Settings α} {p q : Program} {sim sim' : Simulation α}
  {kept back back' : List (Chain α)}

/-- When more lines follow, all chains but the last are planned alike, whatever stands behind
them. -/
theorem exists_kept (h : simulate s p = .ok sim) (h' : simulate s (p ++ q) = .ok sim')
    (hp : unplanned s p ≠ []) : ∃ kept final last resumed planned rest,
      sim.chains = kept ++ [final] ∧ sim'.chains = kept ++ planned :: rest ∧
      (unplanned s p).getLast? = some last ∧ (unplanned s (p ++ q))[kept.length]? = some resumed ∧
      last.moves <+: resumed.moves ∧ resumed.plan = .ok planned := by
  have hplans := plans_simulate h
  have hplans' := plans_simulate h'
  obtain ⟨front, last, resumed, rest, hsplit, hsplit', hprefix⟩ := exists_unplanned_append hp q
  rw [hsplit] at hplans
  rw [hsplit'] at hplans'
  obtain ⟨kept, ends, hchains, hkept, hends⟩ := exists_plans_append hplans
  obtain ⟨kept', ends', hchains', hkept', hends'⟩ := exists_plans_append hplans'
  obtain rfl : kept = kept' := plans_unique hkept hkept'
  obtain ⟨final, _, -, hnil, rfl⟩ := List.forall₂_cons_left_iff.1 hends
  obtain rfl := List.forall₂_nil_left_iff.1 hnil
  obtain ⟨planned, others, hplanned, -, rfl⟩ := List.forall₂_cons_left_iff.1 hends'
  refine ⟨kept, final, last, resumed, planned, others, hchains, hchains', ?_, ?_, hprefix, hplanned⟩
  · rw [hsplit, List.getLast?_concat]
  · rw [hsplit', ← hkept.length_eq, List.getElem?_append_right le_rfl, Nat.sub_self]
    rfl

omit [Scalar α] in
/-- The moves of the chains that are kept are among those of the simulation. -/
theorem length_moves_kept_le (hchains : sim.chains = kept ++ back) :
    (kept.flatMap Chain.moves).length ≤ sim.moves.length := by
  have hmoves : sim.moves = kept.flatMap Chain.moves ++ back.flatMap Chain.moves := by
    rw [Simulation.moves, hchains]
    exact List.flatMap_append
  rw [hmoves, List.length_append]
  exact Nat.le_add_right _ _

/-- The moves of the chains that are kept have their spans. -/
theorem exists_span_kept (h : simulate s p = .ok sim) (hchains : sim.chains = kept ++ back) {i : ℕ}
    (hi : i < (kept.flatMap Chain.moves).length) : ∃ span, sim.track.spans[i]? = some span := by
  have hsize : i < sim.track.spans.size := by
    rw [(isIndexed_simulate h).size_eq]
    exact hi.trans_le (length_moves_kept_le hchains)
  exact ⟨_, Array.getElem?_eq_getElem hsize⟩

/-- Behind the chains that are kept both samplers have stopped with the same on the track, but for
the spans of later moves. -/
theorem exists_front_kept (h : simulate s p = .ok sim) (h' : simulate s (p ++ q) = .ok sim')
    (hchains : sim.chains = kept ++ back) (hchains' : sim'.chains = kept ++ back') :
    (∃ front : List (Entry α), front <+: sim.track.entries ∧ front <+: sim'.track.entries ∧
      ownPoints front = Sampler.startedAt [] (kept.flatMap Chain.moves) ++
        kept.flatMap (·.points s.sampling)) ∧
      ∀ i < (kept.flatMap Chain.moves).length, sim'.track.spans[i]? = sim.track.spans[i]? := by
  obtain ⟨u, hu, hentries, hpoints, hspans⟩ := exists_stop h hchains
  obtain ⟨u', hu', hentries', -, hspans'⟩ := exists_stop h' hchains'
  obtain ⟨v, hv, hshared⟩ := (Sampler.sharesSpans_start s p q).sampleChains hu
  obtain rfl : u' = v := Except.ok.inj (hu'.symm.trans hv)
  rw [hshared.entries_eq] at hentries'
  refine ⟨⟨u.track.entries, hentries, hentries', hpoints⟩, fun i hi => ?_⟩
  have hpath : i < (interpret s p).path.size := by
    rw [← (follows_simulate h).length_eq]
    exact hi.trans_le (length_moves_kept_le hchains)
  rw [hspans' i hi, hshared.spans i hpath, hspans i hi]

/-- Without motion there is nothing to keep. -/
theorem goesOn_of_still (hnil : sim.chains = []) : sim.GoesOn s p q sim' := by
  constructor
  case chains => exact fun hne => absurd hnil hne
  case samples =>
    rw [hnil]
    exact ⟨[], List.nil_prefix, List.nil_prefix, rfl⟩
  case spans =>
    rw [hnil]
    exact fun i hi => absurd hi (Nat.not_lt_zero i)

/-- Whatever arithmetic two simulations have been computed in, the one of the longer program goes on
from the other. -/
theorem goesOn_simulate (h : simulate s p = .ok sim) (h' : simulate s (p ++ q) = .ok sim') :
    sim.GoesOn s p q sim' := by
  by_cases hp : unplanned s p = []
  · have hplans := plans_simulate h
    rw [hp] at hplans
    exact goesOn_of_still (List.forall₂_nil_left_iff.1 hplans)
  obtain ⟨kept, final, last, resumed, planned, rest, hchains, hchains', hlast, hresumed, hprefix,
    hplanned⟩ := exists_kept h h' hp
  obtain ⟨hfront, hspans⟩ := exists_front_kept h h' hchains hchains'
  have hdrop : sim.chains.dropLast = kept := by rw [hchains, List.dropLast_concat]
  constructor <;> rw [hdrop]
  case chains =>
    intro
    exact ⟨last, resumed, planned, rest, hlast, hresumed, hprefix, hplanned, hchains'⟩
  case samples => exact hfront
  case spans =>
    intro i hi
    obtain ⟨span, hspan⟩ := exists_span_kept h hchains hi
    exact ⟨span, hspan, (hspans i hi).trans hspan⟩

end Kept

/-- When more lines follow a program, its simulation goes on: all chains but the last are planned
alike, and their samples and spans stay where they are. Over the reals, under accepted settings,
both programs are simulated. -/
theorem simulate_append (p q : Program) :
    (∀ (s : Settings Float32) (sim sim' : Simulation Float32), simulate s p = .ok sim →
      simulate s (p ++ q) = .ok sim' → sim.GoesOn s p q sim') ∧
    ∀ s : Settings ℝ, s.validate = .ok () → ∃ sim sim', simulate s p = .ok sim ∧
      simulate s (p ++ q) = .ok sim' ∧ sim.GoesOn s p q sim' := by
  refine ⟨fun s sim sim' h h' => goesOn_simulate h h', fun s hs => ?_⟩
  obtain ⟨sim, hsim⟩ := exists_simulate_real hs p
  obtain ⟨sim', hsim'⟩ := exists_simulate_real hs (p ++ q)
  exact ⟨sim, sim', hsim, hsim', goesOn_simulate hsim hsim'⟩

/-- Two lines around a corner, and a third one that goes on from the second: the chain of the first
stays, the second is planned anew. -/
theorem simulate_append_corner :
    (Settings.default : Settings ℝ).validate = .ok () ∧
    (∃ sim sim' : Simulation Float32,
      simulate Settings.default
        [.ofPairs 1 [('X', 1.0)], .ofPairs 2 [('Y', 1.0)]] = .ok sim ∧
      simulate Settings.default
        ([.ofPairs 1 [('X', 1.0)], .ofPairs 2 [('Y', 1.0)]] ++ [.ofPairs 3 [('Y', 2.0)]]) =
        .ok sim' ∧
      sim.GoesOn Settings.default [.ofPairs 1 [('X', 1.0)], .ofPairs 2 [('Y', 1.0)]]
        [.ofPairs 3 [('Y', 2.0)]] sim') ∧
    ∃ sim sim' : Simulation ℝ,
      simulate Settings.default
        [.ofPairs 1 [('X', 1.0)], .ofPairs 2 [('Y', 1.0)]] = .ok sim ∧
      simulate Settings.default
        ([.ofPairs 1 [('X', 1.0)], .ofPairs 2 [('Y', 1.0)]] ++ [.ofPairs 3 [('Y', 2.0)]]) =
        .ok sim' ∧
      sim.GoesOn Settings.default [.ofPairs 1 [('X', 1.0)], .ofPairs 2 [('Y', 1.0)]]
        [.ofPairs 3 [('Y', 2.0)]] sim' := by
  have hvalid : (Settings.default : Settings ℝ).validate = .ok () :=
    Settings.validate_eq_ok.2 Settings.isValid_default
  have hok : (simulate (Settings.default : Settings Float32)
      ([.ofPairs 1 [('X', 1.0)], .ofPairs 2 [('Y', 1.0)]] ++
        [.ofPairs 3 [('Y', 2.0)]])).toBool = true := by
    decide +kernel
  obtain ⟨sim, hsim⟩ := exists_simulate_corner
  obtain ⟨sim', hsim'⟩ := exists_simulate_of_toBool hok
  obtain ⟨hsingle, hreal⟩ := simulate_append [.ofPairs 1 [('X', 1.0)], .ofPairs 2 [('Y', 1.0)]]
    [.ofPairs 3 [('Y', 2.0)]]
  exact ⟨hvalid, ⟨sim, sim', hsim, hsim', hsingle _ sim sim' hsim hsim'⟩,
    hreal Settings.default hvalid⟩

end Toolpath
