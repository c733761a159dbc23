import Toolpath.Proofs.SimulationTheorems

/-!
# The vertices of a simulation

Whatever is computed on the way, a simulation that comes to an end has its vertices and spans in
order (`Simulation.IsIndexed`): no run is empty, there is one span for each move, numbered as the
moves are, and it names vertices that are there.

The sampler keeps this of the moves done so far, `Sampler.IsIndexed`, through one action after the
other: the steps of a move (`linked_pushSteps`), a move with its mark, and the stop behind a chain.
What these keep, sampling chains keeps (`Sampler.keeps_sampleChains`), and so does planning and
sampling them (`Sampler.IsIndexed.planAndSample`).
-/

namespace Toolpath

variable {α : Type} [Scalar α]

namespace Sampler

/-! ## What sampling keeps -/

section Keeps

variable {total : ℕ} {P : Move α → Prop} (Inv : ℕ → Sampler α → Prop)

/-- What sampling the next move keeps, sampling moves one after the other keeps. -/
theorem keeps_sampleMoves
    (hmove : ∀ {done s m s'}, Inv done s → P m → m.index = done → done < total →
      sampleMove s m = .ok s' → Inv (done + 1) s')
    {done : ℕ} {s s' : Sampler α} {moves : List (Move α)} (h : Inv done s) (hP : ∀ m ∈ moves, P m)
    (hindex : IsNumbered done moves) (hdone : done + moves.length ≤ total)
    (hs' : moves.foldlM sampleMove s = .ok s') : Inv (done + moves.length) s' := by
  induction moves generalizing s done with
  | nil =>
    cases hs'
    exact h
  | cons m rest ih =>
    obtain ⟨hfirst, hnext⟩ := hindex.cons
    rw [List.length_cons] at hdone ⊢
    rw [List.foldlM_cons, bind_eq_ok] at hs'
    obtain ⟨u, hu, hrest⟩ := hs'
    have hstep := hmove h (hP m List.mem_cons_self) hfirst (by omega) hu
    have hkept := ih hstep (fun n hn => hP n (List.mem_cons_of_mem m hn)) hnext (by omega) hrest
    rwa [Nat.add_assoc, Nat.add_comm 1] at hkept

variable (hmove : ∀ {done s m s'}, Inv done s → P m → m.index = done → done < total →
    sampleMove s m = .ok s' → Inv (done + 1) s')
  (hdwell : ∀ {done s} point pace, 0 < done → Inv done s → Inv done (dwell s point pace))

include hmove hdwell

/-- What stops keep as well, sampling a chain keeps. A stop lies behind a move. -/
theorem keeps_sampleChain {done : ℕ} {s s' : Sampler α} {c : Chain α} (h : Inv done s)
    (hP : ∀ m ∈ c.moves, P m) (hindex : IsNumbered done c.moves)
    (hdone : done + c.moves.length ≤ total) (hs' : s.sampleChain c = .ok s') :
    Inv (done + c.moves.length) s' := by
  obtain ⟨u, hu, rfl⟩ := sampleChain_eq_ok.1 hs'
  have hmoves := keeps_sampleMoves Inv hmove h hP hindex hdone hu
  rcases hlast : c.moves.getLast? with _ | last
  · exact hmoves
  · have hpos : 0 < c.moves.length := List.length_pos_of_mem (List.mem_of_getLast? hlast)
    exact hdwell last.target last.pace (by omega) hmoves

theorem keeps_sampleChains {done : ℕ} {s s' : Sampler α} {chains : List (Chain α)} (h : Inv done s)
    (hP : ∀ m ∈ chains.flatMap Chain.moves, P m)
    (hindex : IsNumbered done (chains.flatMap Chain.moves))
    (hdone : done + (chains.flatMap Chain.moves).length ≤ total)
    (hs' : chains.foldlM sampleChain s = .ok s') :
    Inv (done + (chains.flatMap Chain.moves).length) s' := by
  induction chains generalizing s done with
  | nil =>
    cases hs'
    exact h
  | cons c rest ih =>
    rw [List.flatMap_cons] at hindex hP
    rw [List.flatMap_cons, List.length_append] at hdone ⊢
    rw [List.foldlM_cons, bind_eq_ok] at hs'
    obtain ⟨u, hu, hrest⟩ := hs'
    obtain ⟨hfirst, hnext⟩ := hindex.append
    obtain ⟨hown, hothers⟩ := List.forall_mem_append.1 hP
    have hchain := keeps_sampleChain Inv hmove hdwell h hown hfirst (by omega) hu
    have hkept := ih hchain hothers hnext (by omega) hrest
    rwa [Nat.add_assoc] at hkept

end Keeps

/-! ## The samples of a move -/

/-- A sample is told to be the last vertex. -/
theorem linked_push {s : Sampler α} (h : s.track.Linked) (x : Sample α) (pace : Pace) :
    (s.push x pace).1.track.Linked ∧
      s.track.samples.length < (s.push x pace).1.track.samples.length ∧
      (s.push x pace).2 + 1 = (s.push x pace).1.track.samples.length :=
  ⟨h.add x pace, h.length_lt_add x pace, h.add_snd x pace⟩

/-- The first move of all gives the sample at its start, so that there is one to begin with. -/
theorem linked_opened {s : Sampler α} (h : s.track.Linked) (m : Move α) :
    (s.opened m).track.Linked ∧ s.track.samples.length ≤ (s.opened m).track.samples.length ∧
      0 < (s.opened m).track.samples.length := by
  unfold opened
  by_cases hempty : s.track.isEmpty = true
  · rw [if_pos hempty]
    obtain ⟨hlinked, hlt, -⟩ := linked_push h ⟨m.source, s.clock⟩ m.pace
    exact ⟨hlinked, hlt.le, by omega⟩
  · rw [if_neg hempty]
    have hne : s.track.samples ≠ [] := fun hnil => hempty (h.isEmpty_iff.2 hnil)
    exact ⟨h, le_rfl, List.length_pos_iff.2 hne⟩

/-- The steps of a move add samples, and tell the vertex of the last. -/
theorem linked_pushSteps {m : Move α} {startTime : α} {steps first : ℕ} {js : List ℕ}
    {s : Sampler α} {out : Sampler α × ℕ} (h : s.track.Linked)
    (hfirst : first + 1 = s.track.samples.length)
    (hout : js.foldlM (fun (u, _) j => pushStep m startTime steps (j + 1) u) (s, first) = .ok out) :
    out.1.track.Linked ∧ out.1.track.spans = s.track.spans ∧
      out.2 + 1 = out.1.track.samples.length ∧ first ≤ out.2 := by
  refine foldlM_keeps (fun u : Sampler α × ℕ => u.1.track.Linked ∧
    u.1.track.spans = s.track.spans ∧ u.2 + 1 = u.1.track.samples.length ∧ first ≤ u.2)
    ?_ ⟨h, rfl, hfirst, le_rfl⟩ hout
  intro u j u' ⟨hu, hspans, hvertex, hle⟩ hstep
  obtain ⟨passage, -, rfl⟩ := pushStep_eq_ok.1 hstep
  obtain ⟨hlinked, hlt, hlast⟩ := linked_push hu
    ⟨m.pointAt (Move.stepRatio (j + 1) steps), startTime + passage.time⟩ m.pace
  exact ⟨hlinked, (onward_push u.1 _ m.pace).spans.trans hspans, hlast, by omega⟩

/-! ## Spans -/

/-- The spans are numbered, and those of the moves done so far name vertices that are there. -/
structure IsIndexed (total done : ℕ) (s : Sampler α) : Prop where
  linked : s.track.Linked
  size_eq : s.track.spans.size = total
  index_eq : ∀ (i : ℕ) (_ : i < s.track.spans.size), s.track.spans[i].index = i
  span_lt : ∀ (i : ℕ) (_ : i < s.track.spans.size), i < done →
    s.track.spans[i].firstVertex < s.track.spans[i].endVertex ∧
      s.track.spans[i].endVertex ≤ s.track.samples.length

namespace IsIndexed

variable {total done : ℕ} {s s' : Sampler α}

omit [Scalar α] in
/-- More samples do not matter. -/
theorem grow (h : s.IsIndexed total done) (hlinked : s'.track.Linked)
    (hspans : s'.track.spans = s.track.spans)
    (hlength : s.track.samples.length ≤ s'.track.samples.length) : s'.IsIndexed total done := by
  refine ⟨hlinked, by rw [hspans, h.size_eq], ?_, ?_⟩
  · simp only [hspans]
    exact h.index_eq
  · simp only [hspans]
    intro i hi hdone
    obtain ⟨hlt, hle⟩ := h.span_lt i hi hdone
    exact ⟨hlt, hle.trans hlength⟩

/-- Sampling the next move notes vertices that are there in its span. -/
theorem sampleMove (h : s.IsIndexed total done) {m : Move α} (hs' : s.sampleMove m = .ok s')
    (hindex : m.index = done) (hdone : done < total) : s'.IsIndexed total (done + 1) := by
  obtain ⟨out, hout, rfl⟩ := sampleMove_eq_ok.1 hs'
  obtain ⟨hopened, hopened_le, hopened_pos⟩ := linked_opened h.linked m
  have hfirst : (s.opened m).track.vertexCount - 1 + 1 = (s.opened m).track.samples.length := by
    rw [hopened.vertexCount_eq]
    omega
  -- up to here the samples of the move have been added, and no span has changed
  obtain ⟨hlinked, hspans, hvertex, hle⟩ := linked_pushSteps hopened hfirst hout
  have hgrown : out.1.IsIndexed total done :=
    h.grow hlinked (hspans.trans (s.onward_opened m).spans) (by omega)
  have hsize : m.index < out.1.track.spans.size := by rw [hgrown.size_eq, hindex]; exact hdone
  -- the mark finds the span of the move, because spans are numbered
  have hset := Track.mark_spans hsize (hgrown.index_eq m.index hsize)
    ((s.opened m).track.vertexCount - 1) (out.2 + 1) s.clock (s.clock + m.profile.duration)
  constructor
  case linked => exact hlinked.mark _ _ _ _ _
  case size_eq =>
    simp only [hset, Array.size_set]
    exact hgrown.size_eq
  case index_eq =>
    intro i hi
    simp only [hset, Array.size_set] at hi ⊢
    rw [Array.getElem_set]
    split_ifs with hi'
    · rw [← hi']
      exact hgrown.index_eq m.index hsize
    · exact hgrown.index_eq i hi
  case span_lt =>
    intro i hi hlt
    simp only [hset, Array.size_set, Track.mark_samples] at hi ⊢
    rw [Array.getElem_set]
    split_ifs with hi'
    · exact ⟨Nat.lt_succ_of_le hle, hvertex.le⟩
    · exact hgrown.span_lt i hi (by omega)

/-- The samples that mark a stop do not matter. -/
theorem dwell (h : s.IsIndexed total done) (point : Vec3 α) (pace : Pace) :
    (s.dwell point pace).IsIndexed total done := by
  unfold Sampler.dwell
  induction List.range s.track.settings.dwellSamples generalizing s with
  | nil => exact h
  | cons _ rest ih =>
    rw [List.foldl_cons]
    apply ih
    have hpush := linked_push (s := { s with clock := s.clock + s.track.settings.dwellInterval })
      h.linked ⟨point, s.clock + s.track.settings.dwellInterval⟩ pace
    exact h.grow hpush.1 (s.track.add_spans _ pace) hpush.2.1.le

/-- Sampling moves one after the other notes vertices that are there. -/
theorem sampleMoves (h : s.IsIndexed total done) {moves : List (Move α)}
    (hs' : moves.foldlM Sampler.sampleMove s = .ok s') (hindex : IsNumbered done moves)
    (hdone : done + moves.length ≤ total) : s'.IsIndexed total (done + moves.length) :=
  keeps_sampleMoves (P := fun _ => True) (fun done u => u.IsIndexed total done)
    (fun hu _ hi hlt hu' => hu.sampleMove hu' hi hlt) h (fun _ _ => trivial) hindex hdone hs'

theorem sampleChain (h : s.IsIndexed total done) {c : Chain α} (hs' : s.sampleChain c = .ok s')
    (hindex : IsNumbered done c.moves) (hdone : done + c.moves.length ≤ total) :
    s'.IsIndexed total (done + c.moves.length) :=
  keeps_sampleChain (P := fun _ => True) (fun done u => u.IsIndexed total done)
    (fun hu _ hi hlt hu' => hu.sampleMove hu' hi hlt) (fun point pace _ hu => hu.dwell point pace) h
    (fun _ _ => trivial) hindex hdone hs'

theorem sampleChains (h : s.IsIndexed total done) {chains : List (Chain α)}
    (hs' : chains.foldlM Sampler.sampleChain s = .ok s')
    (hindex : IsNumbered done (chains.flatMap Chain.moves))
    (hdone : done + (chains.flatMap Chain.moves).length ≤ total) :
    s'.IsIndexed total (done + (chains.flatMap Chain.moves).length) :=
  keeps_sampleChains (P := fun _ => True) (fun done u => u.IsIndexed total done)
    (fun hu _ hi hlt hu' => hu.sampleMove hu' hi hlt) (fun point pace _ hu => hu.dwell point pace) h
    (fun _ _ => trivial) hindex hdone hs'

/-- Planning and sampling chains notes vertices that are there, for all their moves. -/
theorem planAndSample (h : s.IsIndexed total done) {chains planned : List (Chain α)}
    (hs' : planAndSample s chains = .ok (planned, s'))
    (hindex : IsNumbered done (chains.flatMap Chain.moves))
    (hdone : done + (chains.flatMap Chain.moves).length ≤ total) :
    s'.IsIndexed total (done + (chains.flatMap Chain.moves).length) ∧
      (planned.flatMap Chain.moves).length = (chains.flatMap Chain.moves).length := by
  induction chains generalizing s done planned with
  | nil =>
    cases hs'
    exact ⟨h, rfl⟩
  | cons c rest ih =>
    rw [List.flatMap_cons] at hindex
    rw [List.flatMap_cons, List.length_append] at hdone ⊢
    obtain ⟨hfirst, hnext⟩ := hindex.append
    simp only [Toolpath.planAndSample, bind_eq_ok] at hs'
    obtain ⟨plan, hplan, u, hu, ⟨others, u'⟩, hrest, hout⟩ := hs'
    cases hout
    have hlen := (replanned_plan hplan).1
    have hchain := h.sampleChain hu (hfirst.plan hplan) (by omega)
    rw [hlen] at hchain
    obtain ⟨hkept, hlengths⟩ := ih hchain hrest hnext (by omega)
    rw [add_assoc] at hkept
    refine ⟨hkept, ?_⟩
    rw [List.flatMap_cons, List.length_append, hlen, hlengths]

end IsIndexed

end Sampler

/-! ## Simulations -/

/-- The vertices and spans of a simulation are in order. -/
structure Simulation.IsIndexed (sim : Simulation α) : Prop where
  /-- No run is empty. -/
  runs_ne : ∀ r ∈ sim.track.runs, r.samples ≠ #[]
  /-- The vertices of the runs are counted. -/
  vertexCount_eq : sim.track.vertexCount = sim.track.vertices.length
  /-- Every move has its span. -/
  size_eq : sim.track.spans.size = sim.moves.length
  index_eq : ∀ (i : ℕ) (_ : i < sim.track.spans.size), sim.track.spans[i].index = i
  /-- A span names at least one vertex, and only vertices that are there. -/
  span_lt : ∀ (i : ℕ) (_ : i < sim.track.spans.size),
    sim.track.spans[i].firstVertex < sim.track.spans[i].endVertex ∧
      sim.track.spans[i].endVertex ≤ sim.track.vertices.length

/-- The track that interpretation leaves behind has a numbered span for each move of the path. -/
theorem isIndexed_start (s : Settings α) (p : Program) :
    (Sampler.start (interpret s p).heard).IsIndexed (interpret s p).path.size 0 :=
  ⟨(linked_interpret s p).1, size_spans_interpret s p, fun _ hi => index_spans_interpret s p hi,
    fun i _ hlt => absurd hlt (Nat.not_lt_zero i)⟩

/-- A simulation has its vertices and spans in order. -/
theorem isIndexed_simulate {s : Settings α} {p : Program} {sim : Simulation α}
    (h : simulate s p = .ok sim) : sim.IsIndexed := by
  obtain ⟨planned, sampler, hrun, rfl⟩ := simulate_eq_ok.1 h
  have hlength : ((Chain.ofPath (interpret s p).path.toList s.machine.maxAcceleration).flatMap
      Chain.moves).length = (interpret s p).path.size := by
    rw [Chain.flatMap_ofPath, List.length_map, Array.length_toList]
  obtain ⟨hkept, hmoves⟩ :=
    (isIndexed_start s p).planAndSample hrun (isNumbered_interpret s p) (by omega)
  -- closing the last run makes all samples vertices
  have hclosed := hkept.linked.close
  have hvertices : sampler.track.close.vertices.length = sampler.track.samples.length :=
    Track.length_vertices _
  constructor
  case runs_ne => exact hclosed.samples_ne
  case vertexCount_eq =>
    show sampler.track.close.vertexCount = sampler.track.close.vertices.length
    rw [hclosed.vertexCount_eq, Track.samples_close, hvertices]
  case size_eq =>
    show sampler.track.close.spans.size = (planned.flatMap Chain.moves).length
    rw [Track.close_spans, hkept.size_eq, hmoves, hlength]
  case index_eq =>
    simp only [Track.close_spans]
    exact hkept.index_eq
  case span_lt =>
    simp only [Track.close_spans, hvertices]
    intro i hi
    have hsize := hkept.size_eq
    exact hkept.span_lt i hi (by omega)

end Toolpath
