import Toolpath.Scalar.Single
import Toolpath.Proofs.SpanTheorems

/-!
# Where the moves lie among the vertices

The vertices of a simulation are the source of the first move and then, chain after chain, the
points of its moves and of the stop behind it. Copies are strewn in where a new run starts. Every
move has a span with its number and line, and the span holds exactly its points
(`Simulation.IsLaidOut`).

Which points come in which order is followed through moves, chains and the whole path by
`Sampler.Draws`. The span of a move is laid out when the move is sampled; that it lies there still
at the end is what `Sampler.Extends` says of all that is sampled behind it.
-/

namespace Toolpath

variable {α : Type} [Scalar α]

namespace Sampler

/-! ## The order of the points -/

omit [Scalar α] in
/-- Only the head of a path says where it starts. -/
theorem startedAt_append {first next : List (Move α)} (points : List (Vec3 α))
    {more : List (Vec3 α)} (hmore : first = [] → more = []) :
    startedAt (startedAt points first ++ more) next = startedAt points (first ++ next) ++ more := by
  cases first with
  | nil => rw [hmore rfl, startedAt_nil, List.append_nil, List.append_nil, List.nil_append]
  | cons m rest =>
    have hne : startedAt points (m :: rest) ≠ [] := by
      unfold startedAt
      split_ifs with hnil
      · exact List.cons_ne_nil _ _
      · simpa using hnil
    rw [startedAt_of_ne (by simp [hne])]
    rfl

omit [Scalar α] in
theorem startedAt_append_cons (points : List (Vec3 α)) (moves : List (Move α)) (m : Move α)
    (rest : List (Move α)) :
    startedAt points (moves ++ m :: rest) = startedAt points (moves ++ [m]) := by
  cases moves <;> rfl

/-- From one state of the sampler to another, moves have been gone through, whose points have been
added behind the start of the path. -/
structure Draws {α : Type} (moves : List (Move α)) (points : List (Vec3 α))
    (s s' : Sampler α) : Prop where
  ends : s'.track.EndsOwn
  settings : s'.track.settings = s.track.settings
  points_nil : moves = [] → points = []
  points_eq : ownPoints s'.track.entries = startedAt (ownPoints s.track.entries) moves ++ points

namespace Draws

variable {s s' s'' : Sampler α} {moves next : List (Move α)} {points more : List (Vec3 α)}

omit [Scalar α] in
theorem refl (h : s.track.EndsOwn) : s.Draws [] [] s :=
  ⟨h, rfl, fun _ => rfl, by rw [startedAt_nil, List.append_nil]⟩

omit [Scalar α] in
theorem trans (h : s.Draws moves points s') (h' : s'.Draws next more s'') :
    s.Draws (moves ++ next) (points ++ more) s'' := by
  refine ⟨h'.ends, h'.settings.trans h.settings, ?_, ?_⟩
  · intro hnil
    obtain ⟨hmoves, hnext⟩ := List.append_eq_nil_iff.1 hnil
    rw [h.points_nil hmoves, h'.points_nil hnext]
    rfl
  · rw [h'.points_eq, h.points_eq, startedAt_append _ h.points_nil, List.append_assoc]

end Draws

theorem draws_sampleMove {s s' : Sampler α} {m : Move α} (h : s.track.EndsOwn)
    (hs' : s.sampleMove m = .ok s') : s.Draws [m] (m.points s.track.settings) s' := by
  have hadds := adds_sampleMove h hs'
  obtain ⟨-, hstarted, -⟩ := endsOwn_opened h m
  refine ⟨hadds.ends, settings_sampleMove hs', nofun, ?_⟩
  rw [hadds.ownPoints_eq, hstarted]

theorem draws_sampleMoves {s s' : Sampler α} {moves : List (Move α)} (h : s.track.EndsOwn)
    (hs' : moves.foldlM sampleMove s = .ok s') :
    s.Draws moves (moves.flatMap (·.points s.track.settings)) s' := by
  induction moves generalizing s with
  | nil =>
    cases hs'
    exact Draws.refl h
  | cons m rest ih =>
    rw [List.foldlM_cons, bind_eq_ok] at hs'
    obtain ⟨u, hu, hrest⟩ := hs'
    have hfirst := draws_sampleMove h hu
    have hnext := ih hfirst.ends hrest
    rw [hfirst.settings] at hnext
    exact hfirst.trans hnext

theorem draws_sampleChain {s s' : Sampler α} {c : Chain α} (h : s.track.EndsOwn)
    (hs' : s.sampleChain c = .ok s') : s.Draws c.moves (c.points s.track.settings) s' := by
  obtain ⟨u, hu, rfl⟩ := sampleChain_eq_ok.1 hs'
  have hmoves := draws_sampleMoves h hu
  unfold Chain.points
  cases hlast : c.moves.getLast? with
  | none => simpa [hlast] using hmoves
  | some last =>
    have hdwell := adds_dwell hmoves.ends last.target last.pace
    rw [hmoves.settings] at hdwell
    refine ⟨hdwell.ends, (u.settings_dwell last.target last.pace).trans hmoves.settings, ?_, ?_⟩
    · intro hnil
      rw [hnil] at hlast
      contradiction
    · rw [← List.append_assoc, ← hmoves.points_eq]
      exact hdwell.ownPoints_eq

theorem draws_sampleChains {s s' : Sampler α} {chains : List (Chain α)} (h : s.track.EndsOwn)
    (hs' : chains.foldlM sampleChain s = .ok s') :
    s.Draws (chains.flatMap Chain.moves) (chains.flatMap (·.points s.track.settings)) s' := by
  induction chains generalizing s with
  | nil =>
    cases hs'
    exact Draws.refl h
  | cons c rest ih =>
    rw [List.foldlM_cons, bind_eq_ok] at hs'
    obtain ⟨u, hu, hrest⟩ := hs'
    have hfirst := draws_sampleChain h hu
    have hnext := ih hfirst.ends hrest
    rw [hfirst.settings] at hnext
    exact hfirst.trans hnext

/-! ## What lies there stays -/

theorem extends_sampleMoves {done : ℕ} {s s' : Sampler α} {moves : List (Move α)}
    (h : s.track.EndsOwn) (hs' : moves.foldlM sampleMove s = .ok s')
    (hindex : IsNumbered done moves) : s.Extends done s' := by
  induction moves generalizing s done with
  | nil =>
    cases hs'
    exact Extends.refl done _
  | cons m rest ih =>
    rw [List.foldlM_cons, bind_eq_ok] at hs'
    obtain ⟨u, hu, hrest⟩ := hs'
    obtain ⟨hfirst, hnext⟩ := hindex.cons
    have hmove := extends_sampleMove h hu
    rw [hfirst] at hmove
    exact hmove.trans ((ih (draws_sampleMove h hu).ends hrest hnext).mono (Nat.le_succ done))

theorem extends_sampleChain {done : ℕ} {s s' : Sampler α} {c : Chain α} (h : s.track.EndsOwn)
    (hs' : s.sampleChain c = .ok s') (hindex : IsNumbered done c.moves) : s.Extends done s' := by
  obtain ⟨u, hu, rfl⟩ := sampleChain_eq_ok.1 hs'
  have hmoves := extends_sampleMoves h hu hindex
  cases c.moves.getLast? with
  | none => exact hmoves
  | some last =>
    exact hmoves.trans (extends_dwell (draws_sampleMoves h hu).ends done last.target last.pace)

/-- Sampling chains leaves what is on the track, and the spans of other moves. -/
theorem extends_sampleChains {done : ℕ} {s s' : Sampler α} {chains : List (Chain α)}
    (h : s.track.EndsOwn) (hs' : chains.foldlM sampleChain s = .ok s')
    (hindex : IsNumbered done (chains.flatMap Chain.moves)) : s.Extends done s' := by
  induction chains generalizing s done with
  | nil =>
    cases hs'
    exact Extends.refl done _
  | cons c rest ih =>
    rw [List.foldlM_cons, bind_eq_ok] at hs'
    obtain ⟨u, hu, hrest⟩ := hs'
    rw [List.flatMap_cons] at hindex
    obtain ⟨hfirst, hnext⟩ := hindex.append
    exact (extends_sampleChain h hu hfirst).trans
      ((ih (draws_sampleChain h hu).ends hrest hnext).mono (Nat.le_add_right done _))

/-! ## The spans of the path -/

namespace IsIndexed

variable {total done : ℕ} {s s' : Sampler α}

/-- Once moves are sampled, the span of each of them holds its points. -/
theorem holds_sampleMoves (h : s.IsIndexed total done) (hends : s.track.EndsOwn)
    {moves rest : List (Move α)} {m : Move α}
    (hs' : (moves ++ m :: rest).foldlM Sampler.sampleMove s = .ok s')
    (hindex : IsNumbered done (moves ++ m :: rest))
    (hdone : done + (moves ++ m :: rest).length ≤ total) :
    ∃ span, s'.track.spans[done + moves.length]? = some span ∧
      span.Holds s'.track.entries
        (startedAt (ownPoints s.track.entries) (moves ++ [m]) ++
          moves.flatMap (·.points s.track.settings)) (m.points s.track.settings) := by
  rw [List.length_append, List.length_cons] at hdone
  rw [List.foldlM_append, bind_eq_ok] at hs'
  obtain ⟨u, hu, hs'⟩ := hs'
  rw [List.foldlM_cons, bind_eq_ok] at hs'
  obtain ⟨v, hv, hrest⟩ := hs'
  obtain ⟨hmoves, hnext⟩ := hindex.append
  obtain ⟨hm, hnext⟩ := hnext.cons
  have hdraws := draws_sampleMoves hends hu
  obtain ⟨span, hspan, hholds⟩ :=
    (h.sampleMoves hu hmoves (by omega)).holds_sampleMove hdraws.ends hv hm (by omega)
  rw [hdraws.settings, hdraws.points_eq, startedAt_append _ hdraws.points_nil] at hholds
  have hextends := extends_sampleMoves (draws_sampleMove hdraws.ends hv).ends hrest hnext
  exact ⟨span, hextends.holds (Nat.lt_succ_self _) hspan hholds⟩

/-- Each move of a chain has its samples in its span. -/
theorem holds_sampleChain (h : s.IsIndexed total done) (hends : s.track.EndsOwn)
    {c : Chain α} (hs' : s.sampleChain c = .ok s') (hindex : IsNumbered done c.moves)
    (hdone : done + c.moves.length ≤ total) {moves rest : List (Move α)} {m : Move α}
    (hsplit : c.moves = moves ++ m :: rest) :
    ∃ span, s'.track.spans[done + moves.length]? = some span ∧
      span.Holds s'.track.entries
        (startedAt (ownPoints s.track.entries) (moves ++ [m]) ++
          moves.flatMap (·.points s.track.settings)) (m.points s.track.settings) := by
  obtain ⟨u, hu, rfl⟩ := sampleChain_eq_ok.1 hs'
  rw [hsplit] at hu hindex hdone
  have hends' := (draws_sampleMoves hends hu).ends
  obtain ⟨span, hspan, hholds⟩ := h.holds_sampleMoves hends hu hindex hdone
  refine ⟨span, ?_⟩
  cases c.moves.getLast? with
  | none => exact ⟨hspan, hholds⟩
  | some last =>
    exact (extends_dwell hends' _ last.target last.pace).holds (Nat.lt_succ_self _) hspan hholds

/-- Once chains are sampled, the span of each of their moves holds its points. -/
theorem holds_sampleChains (h : s.IsIndexed total done) (hends : s.track.EndsOwn)
    {before after : List (Chain α)} {c : Chain α}
    (hs' : (before ++ c :: after).foldlM Sampler.sampleChain s = .ok s')
    (hindex : IsNumbered done ((before ++ c :: after).flatMap Chain.moves))
    (hdone : done + ((before ++ c :: after).flatMap Chain.moves).length ≤ total)
    {moves rest : List (Move α)} {m : Move α} (hsplit : c.moves = moves ++ m :: rest) :
    ∃ span, s'.track.spans[done + (before.flatMap Chain.moves).length + moves.length]? = some span ∧
      span.Holds s'.track.entries
        (startedAt (ownPoints s.track.entries) (before.flatMap Chain.moves ++ (moves ++ [m])) ++
          before.flatMap (·.points s.track.settings) ++
          moves.flatMap (·.points s.track.settings)) (m.points s.track.settings) := by
  rw [List.flatMap_append, List.flatMap_cons] at hindex hdone
  rw [List.length_append, List.length_append] at hdone
  rw [List.foldlM_append, bind_eq_ok] at hs'
  obtain ⟨u, hu, hs'⟩ := hs'
  rw [List.foldlM_cons, bind_eq_ok] at hs'
  obtain ⟨v, hv, hrest⟩ := hs'
  obtain ⟨hbefore, hnext⟩ := hindex.append
  obtain ⟨hc, hnext⟩ := hnext.append
  -- the chains in front have drawn their points; those behind leave the span as it is
  have hdraws := draws_sampleChains hends hu
  obtain ⟨span, hspan, hholds⟩ :=
    (h.sampleChains hu hbefore (by omega)).holds_sampleChain hdraws.ends hv hc (by omega) hsplit
  rw [hdraws.settings, hdraws.points_eq, startedAt_append _ hdraws.points_nil] at hholds
  have hextends := extends_sampleChains (draws_sampleChain hdraws.ends hv).ends hrest hnext
  have hlt : moves.length < c.moves.length := by
    rw [hsplit, List.length_append, List.length_cons]
    omega
  exact ⟨span, hextends.holds (by omega) hspan hholds⟩

end IsIndexed

/-! ## Headings -/

/-- Sampling a move keeps the headings of all spans. -/
theorem headings_sampleMove {s s' : Sampler α} {m : Move α} (hs' : s.sampleMove m = .ok s') :
    s'.track.spans.map Span.heading = s.track.spans.map Span.heading := by
  obtain ⟨out, hout, rfl⟩ := sampleMove_eq_ok.1 hs'
  rw [Track.mark_heading, spans_pushSteps hout, (s.onward_opened m).spans]

/-- Sampling a chain keeps the headings of all spans. -/
theorem headings_sampleChain {s s' : Sampler α} {c : Chain α} (hs' : s.sampleChain c = .ok s') :
    s'.track.spans.map Span.heading = s.track.spans.map Span.heading := by
  obtain ⟨u, hu, rfl⟩ := sampleChain_eq_ok.1 hs'
  have hmoves : u.track.spans.map Span.heading = s.track.spans.map Span.heading :=
    foldlM_keeps (fun u => u.track.spans.map Span.heading = s.track.spans.map Span.heading)
      (fun u m u' hu hu' => (headings_sampleMove hu').trans hu) rfl hu
  cases c.moves.getLast? with
  | none => exact hmoves
  | some last =>
    show (u.dwell last.target last.pace).track.spans.map Span.heading = _
    rw [spans_dwell, hmoves]

/-- Sampling leaves the line, the number and the polyline of every span as they are. -/
theorem headings_sampleChains {s s' : Sampler α} {chains : List (Chain α)}
    (hs' : chains.foldlM sampleChain s = .ok s') :
    s'.track.spans.map Span.heading = s.track.spans.map Span.heading :=
  foldlM_keeps (fun u => u.track.spans.map Span.heading = s.track.spans.map Span.heading)
    (fun _ _ _ hu hu' => (headings_sampleChain hu').trans hu) rfl hs'

end Sampler

/-- The heading of the span of a move. -/
def Move.heading (settings : SamplingSettings α) (m : Move α) : ℕ × ℕ × List (Vec3 α) :=
  (m.line, m.index, m.polyline (if m.isArc then m.stepCount settings else 1))

/-- A move has its heading with any limits. -/
theorem Move.heading_limited (settings : SamplingSettings α) (m : Move α) (acceleration : α) :
    (m.limited acceleration).heading settings = m.heading settings := rfl

/-- Planning keeps the heading of a move. -/
theorem Move.Replanned.heading {m planned : Move α} (h : m.Replanned planned)
    (settings : SamplingSettings α) : planned.heading settings = m.heading settings := by
  rw [h]
  rfl

/-- The planned moves of all chains are their moves with new profiles. -/
theorem replanned_plans {chains planned : List (Chain α)}
    (h : List.Forall₂ (fun c plan => c.plan = .ok plan) chains planned) :
    List.Forall₂ Move.Replanned (chains.flatMap Chain.moves) (planned.flatMap Chain.moves) := by
  refine List.rel_flatMap h ?_
  intro c plan hplan
  obtain ⟨hlen, hkept⟩ := replanned_plan hplan
  rw [List.forall₂_iff_get]
  exact ⟨hlen.symm, fun i hi hi' => hkept i hi hi'⟩

omit [Scalar α] in
/-- Planning keeps the numbers of moves. -/
theorem IsNumbered.replanned {first : ℕ} {moves planned : List (Move α)}
    (h : IsNumbered first moves) (hplanned : List.Forall₂ Move.Replanned moves planned) :
    IsNumbered first planned := by
  obtain ⟨hlen, hget⟩ := List.forall₂_iff_get.1 hplanned
  intro k hk
  have hk' : k < moves.length := by omega
  exact (hget k hk' hk).index.trans (h k hk')

omit [Scalar α] in
/-- A place in the path is a place in one of its chains. -/
theorem exists_split {chains : List (Chain α)} {front back : List (Move α)} {m : Move α}
    (h : chains.flatMap Chain.moves = front ++ m :: back) :
    ∃ before c after moves rest, chains = before ++ c :: after ∧ c.moves = moves ++ m :: rest ∧
      before.flatMap Chain.moves ++ moves = front := by
  induction chains generalizing front with
  | nil => simp at h
  | cons c others ih =>
    rw [List.flatMap_cons, List.append_eq_append_iff] at h
    obtain ⟨front', rfl, hothers⟩ | ⟨back', hc, hback⟩ := h
    · obtain ⟨before, d, after, moves, rest, rfl, hd, rfl⟩ := ih hothers
      exact ⟨c :: before, d, after, moves, rest, rfl, hd, by
        rw [List.flatMap_cons, List.append_assoc]⟩
    · cases back' with
      | nil =>
        have hothers : others.flatMap Chain.moves = [] ++ m :: back := hback.symm
        obtain ⟨before, d, after, moves, rest, rfl, hd, hfront⟩ := ih hothers
        refine ⟨c :: before, d, after, moves, rest, rfl, hd, ?_⟩
        rw [List.flatMap_cons, List.append_assoc, hfront, hc]
        simp
      | cons m' back' =>
        obtain ⟨rfl, -⟩ := List.cons_eq_cons.1 hback
        exact ⟨[], c, others, front, back', rfl, hc, rfl⟩

/-! ## Simulations -/

/-- The track of a simulation has been filled by sampling its chains in order. -/
theorem sampled_simulate {s : Settings α} {p : Program} {sim : Simulation α}
    (h : simulate s p = .ok sim) :
    ∃ sampler, sim.chains.foldlM Sampler.sampleChain (.start (interpret s p).heard) = .ok sampler ∧
      sim.track = sampler.track.close ∧
      List.Forall₂ Move.Replanned
        ((interpret s p).path.toList.map (·.limited s.machine.maxAcceleration)) sim.moves := by
  obtain ⟨planned, sampler, hrun, rfl⟩ := simulate_eq_ok.1 h
  obtain ⟨hplans, hsampled⟩ := planAndSample_eq_ok.1 hrun
  have hreplanned := replanned_plans hplans
  rw [Chain.flatMap_ofPath] at hreplanned
  exact ⟨sampler, hsampled, rfl, hreplanned⟩

/-- A simulation follows a path: its moves are those of the path, one by one, but for what measuring
and planning have given them. -/
structure Simulation.Follows (sim : Simulation α) (path : Array (Move α)) : Prop where
  length_eq : sim.moves.length = path.size
  nil_iff : sim.moves = [] ↔ path = #[]
  move_eq : ∀ (i : ℕ) (_ : i < sim.moves.length) (_ : i < path.size),
    sim.moves[i] = { path[i] with
      length := path[i].courseLength, peakSq := sim.moves[i].peakSq,
      maxAccel := sim.moves[i].maxAccel, profile := sim.moves[i].profile }

/-- A simulation follows the path of its program. -/
theorem follows_simulate {s : Settings α} {p : Program} {sim : Simulation α}
    (h : simulate s p = .ok sim) : sim.Follows (interpret s p).path := by
  obtain ⟨-, -, -, hreplanned⟩ := sampled_simulate h
  obtain ⟨hlength, hget⟩ := List.forall₂_iff_get.1 hreplanned
  rw [List.length_map, Array.length_toList] at hlength
  constructor
  case length_eq => exact hlength.symm
  case nil_iff => rw [← List.length_eq_zero_iff, ← hlength, Array.size_eq_zero_iff]
  case move_eq =>
    intro i hi hi'
    have hmove := hget i (by rw [List.length_map]; exact hi') hi
    rw [List.get_eq_getElem, List.get_eq_getElem, List.getElem_map, Array.getElem_toList] at hmove
    have hkept := hmove.maxAccel
    rw [Move.Replanned] at hmove
    conv_lhs => rw [hmove]
    rw [hkept]
    rfl

/-- The spans of a simulation have the headings of its moves. -/
theorem headings_simulate {s : Settings α} {p : Program} {sim : Simulation α}
    (h : simulate s p = .ok sim) :
    sim.track.spans.toList.map Span.heading = sim.moves.map (Move.heading s.sampling) := by
  obtain ⟨sampler, hsampled, htrack, hreplanned⟩ := sampled_simulate h
  have hmoves : sim.moves.map (Move.heading s.sampling) =
      (interpret s p).path.toList.map (Move.heading s.sampling) := by
    rw [← List.forall₂_eq_eq_eq, List.forall₂_map_left_iff, List.forall₂_map_right_iff]
    rw [List.forall₂_map_left_iff] at hreplanned
    exact hreplanned.flip.imp fun _ m hm =>
      (Move.Replanned.heading hm s.sampling).trans (m.heading_limited s.sampling _)
  rw [htrack, Track.close_spans, ← Array.toList_map, Sampler.headings_sampleChains hsampled, hmoves]
  show ((interpret s p).heard.spans.map Span.heading).toList = _
  rw [spans_interpret, Array.toList_map, List.map_map]
  rfl

/-- The spans of a simulation lay out the points of its moves among the vertices. -/
structure Simulation.IsLaidOut (settings : SamplingSettings α) (sim : Simulation α) : Prop where
  /-- Every move has its span. -/
  size_eq : sim.track.spans.size = sim.moves.length
  span_eq : ∀ (i : ℕ) (_ : i < sim.track.spans.size) (_ : i < sim.moves.length),
    sim.track.spans[i].index = i ∧ sim.track.spans[i].line = sim.moves[i].line
  /-- The vertices are those of the entries, the copies among them. -/
  vertices_eq : sim.track.vertices = sim.track.entries.map fun e => (e.sample.point, e.pace)
  /-- The copies aside, they are the source of the first move and the points of the chains. -/
  points_eq : ownPoints sim.track.entries =
    sim.moves.head?.toList.map (·.source) ++ sim.chains.flatMap (·.points settings)
  /-- The first span starts at the first vertex, the source of the first move. -/
  opening : ∀ span, sim.track.spans[0]? = some span →
    span.firstVertex = 0 ∧ sim.track.vertices.head?.map (·.1) = sim.moves.head?.map (·.source)
  /-- Behind the points added before it, the span of a move holds exactly those of the move. For an
  arc they are the corners of the span without the first. -/
  holds : ∀ before c after moves m rest, sim.chains = before ++ c :: after →
    c.moves = moves ++ m :: rest →
    ∃ span, sim.track.spans[(before.flatMap Chain.moves).length + moves.length]? = some span ∧
      span.Holds sim.track.entries
        (sim.moves.head?.toList.map (·.source) ++ before.flatMap (·.points settings) ++
          moves.flatMap (·.points settings)) (m.points settings) ∧
      (m.isArc = true → span.corners.tail = m.points settings)
  /-- Inside a chain the next span starts where one ends. -/
  next : ∀ before c after moves m m' rest, sim.chains = before ++ c :: after →
    c.moves = moves ++ m :: m' :: rest →
    ∃ span span', sim.track.spans[(before.flatMap Chain.moves).length + moves.length]? = some span ∧
      sim.track.spans[(before.flatMap Chain.moves).length + moves.length + 1]? = some span' ∧
      span'.firstVertex + 1 = span.endVertex

/-- Sampling starts with no sample, under the given settings. -/
theorem endsOwn_start (s : Settings α) (p : Program) :
    (Sampler.start (interpret s p).heard).track.EndsOwn ∧
      ownPoints (Sampler.start (interpret s p).heard).track.entries = [] ∧
      (Sampler.start (interpret s p).heard).track.settings = s.sampling := by
  obtain ⟨hlinked, hsamples⟩ := linked_interpret s p
  have hentries : (interpret s p).heard.entries = [] := by
    rw [← List.map_eq_nil_iff, Track.map_sample_entries, hsamples]
  refine ⟨⟨hlinked, ?_⟩, ?_, ?_⟩
  · intro e he
    rw [show (Sampler.start (interpret s p).heard).track.entries = [] from hentries] at he
    contradiction
  · show ownPoints (interpret s p).heard.entries = []
    rw [hentries]
    rfl
  · show (interpret s p).heard.settings = s.sampling
    rw [heard_interpret]
    rfl

/-- The samples of a simulation start with the source of its first move, and behind it come the
points of its chains. -/
theorem drawn_simulate {s : Settings α} {p : Program} {sim : Simulation α}
    (h : simulate s p = .ok sim) :
    sim.track.EndsOwn ∧ ownPoints sim.track.entries =
      sim.moves.head?.toList.map (·.source) ++ sim.chains.flatMap (·.points s.sampling) := by
  obtain ⟨sampler, hsampled, htrack, -⟩ := sampled_simulate h
  obtain ⟨hends, hnil, hsettings⟩ := endsOwn_start s p
  have hdraws := Sampler.draws_sampleChains hends hsampled
  rw [htrack]
  refine ⟨⟨hdraws.ends.linked.close, ?_⟩, ?_⟩
  · rw [Track.entries_close]
    exact hdraws.ends.last_own
  · rw [Track.entries_close, hdraws.points_eq, hnil, hsettings]
    rfl

/-- In a simulation the span of every move holds its points. -/
theorem holds_simulate {s : Settings α} {p : Program} {sim : Simulation α}
    (h : simulate s p = .ok sim) {before after : List (Chain α)} {c : Chain α}
    (hchains : sim.chains = before ++ c :: after) {moves rest : List (Move α)} {m : Move α}
    (hmoves : c.moves = moves ++ m :: rest) :
    ∃ span, sim.track.spans[(before.flatMap Chain.moves).length + moves.length]? = some span ∧
      span.Holds sim.track.entries
        (sim.moves.head?.toList.map (·.source) ++ before.flatMap (·.points s.sampling) ++
          moves.flatMap (·.points s.sampling)) (m.points s.sampling) := by
  obtain ⟨sampler, hsampled, htrack, hreplanned⟩ := sampled_simulate h
  obtain ⟨hends, hnil, hsettings⟩ := endsOwn_start s p
  have hnumbered : IsNumbered 0 (sim.chains.flatMap Chain.moves) := by
    have hpath := isNumbered_interpret s p
    rw [Chain.flatMap_ofPath] at hpath
    exact hpath.replanned hreplanned
  have hlength := hreplanned.length_eq
  rw [List.length_map, Array.length_toList] at hlength
  -- every part of the path starts where the whole path starts
  have hsource : sim.moves.head?.toList.map (·.source) =
      Sampler.startedAt [] (before.flatMap Chain.moves ++ (moves ++ [m])) := by
    rw [← List.append_assoc, ← Sampler.startedAt_append_cons [] _ m
      (rest ++ after.flatMap Chain.moves), Simulation.moves, hchains, List.flatMap_append,
      List.flatMap_cons, hmoves]
    simp [Sampler.startedAt]
  have hbound : 0 + (sim.chains.flatMap Chain.moves).length ≤ (interpret s p).path.size := by
    rw [Nat.zero_add, hlength]
    rfl
  rw [hchains] at hsampled hnumbered hbound
  obtain ⟨span, hspan, hholds⟩ := (isIndexed_start s p).holds_sampleChains hends hsampled hnumbered
    hbound hmoves
  rw [Nat.zero_add] at hspan
  rw [hnil, hsettings, ← hsource] at hholds
  exact ⟨span, by rw [htrack, Track.close_spans, hspan], by
    rw [htrack, Track.entries_close]; exact hholds⟩

/-- The vertices of a simulation are its samples, copies and all. -/
theorem vertices_simulate {s : Settings α} {p : Program} {sim : Simulation α}
    (h : simulate s p = .ok sim) :
    sim.track.vertices = sim.track.entries.map fun e => (e.sample.point, e.pace) := by
  obtain ⟨sampler, -, htrack, -⟩ := sampled_simulate h
  rw [htrack, Track.entries_close, Track.vertices_close]

/-- The first span of a simulation starts at the source of the first move. -/
theorem opening_simulate {s : Settings α} {p : Program} {sim : Simulation α}
    (h : simulate s p = .ok sim) {span : Span α} (hspan : sim.track.spans[0]? = some span) :
    span.firstVertex = 0 ∧ sim.track.vertices.head?.map (·.1) = sim.moves.head?.map (·.source) := by
  have hsize := (isIndexed_simulate h).size_eq
  obtain ⟨hends, hpoints⟩ := drawn_simulate h
  obtain ⟨hpos, -⟩ := Array.getElem?_eq_some_iff.1 hspan
  obtain ⟨m, back, hback⟩ :=
    List.exists_cons_of_ne_nil (List.length_pos_iff.1 (hsize ▸ hpos))
  have hpath : sim.chains.flatMap Chain.moves = [] ++ m :: back := hback
  obtain ⟨before, c, after, moves, rest, hchains, hmoves, hfront⟩ := exists_split hpath
  obtain ⟨hbefore, rfl⟩ := List.append_eq_nil_iff.1 hfront
  obtain ⟨span', hspan', hholds⟩ := holds_simulate h hchains hmoves
  rw [hbefore] at hspan'
  obtain rfl : span' = span := Option.some.inj (hspan'.symm.trans hspan)
  -- chains without moves have no points
  have hnone : before.flatMap (·.points s.sampling) = [] := by
    rw [List.flatMap_eq_nil_iff] at hbefore ⊢
    intro d hd
    rw [Chain.points, hbefore d hd]
    rfl
  rw [hback, hnone] at hholds
  obtain ⟨e, entries, hentries⟩ : ∃ e entries, sim.track.entries = e :: entries := by
    apply List.exists_cons_of_ne_nil
    intro hnil
    have htwo := hholds.two_le
    have hle := hholds.le_length
    rw [hnil, List.length_nil] at hle
    omega
  have hown : e.isCopy = false := hends.linked.head_entries (by rw [hentries]; rfl)
  refine ⟨hholds.firstVertex_eq_zero (by rw [hentries, ← hown]; rfl), ?_⟩
  -- the first entry is the first point
  rw [hentries, hback] at hpoints
  simp only [ownPoints, ownSamples, List.filter_cons, hown] at hpoints
  rw [vertices_simulate h, hentries, hback]
  exact congrArg some (List.cons_eq_cons.1 hpoints).1

/-- The spans of a simulation are laid out along its vertices. -/
theorem isLaidOut_simulate {s : Settings α} {p : Program} {sim : Simulation α}
    (h : simulate s p = .ok sim) : sim.IsLaidOut s.sampling := by
  have hheadings := headings_simulate h
  have hindexed := isIndexed_simulate h
  have hheading : ∀ (i : ℕ) (_ : i < sim.track.spans.size) (_ : i < sim.moves.length),
      sim.track.spans[i].heading = sim.moves[i].heading s.sampling := by
    intro i hi hi'
    have hget := congrArg (·[i]?) hheadings
    simpa [hi, hi'] using hget
  constructor
  case size_eq => exact hindexed.size_eq
  case span_eq =>
    intro i hi hi'
    exact ⟨hindexed.index_eq i hi, congrArg (·.1) (hheading i hi hi')⟩
  case vertices_eq => exact vertices_simulate h
  case points_eq => exact (drawn_simulate h).2
  case opening => exact fun span hspan => opening_simulate h hspan
  case holds =>
    intro before c after moves m rest hchains hmoves
    obtain ⟨span, hspan, hholds⟩ := holds_simulate h hchains hmoves
    refine ⟨span, hspan, hholds, fun harc => ?_⟩
    -- the headings are known by place, so the move is looked up by the place that it has
    have hmove : sim.moves[(before.flatMap Chain.moves).length + moves.length]? = some m := by
      rw [Simulation.moves, hchains, List.flatMap_append, List.flatMap_cons, hmoves]
      simp
    obtain ⟨hi, rfl⟩ := Array.getElem?_eq_some_iff.1 hspan
    obtain ⟨hi', rfl⟩ := List.getElem?_eq_some_iff.1 hmove
    have hcorners := congrArg (·.2.2) (hheading _ hi hi')
    simp only [Span.heading, Move.heading, harc, if_true] at hcorners
    rw [hcorners, Move.tail_polyline]
  case next =>
    intro before c after moves m m' rest hchains hmoves
    obtain ⟨span, hspan, hholds⟩ := holds_simulate h hchains hmoves
    have hmoves' : c.moves = (moves ++ [m]) ++ m' :: rest := by
      rw [hmoves, List.append_assoc]
      rfl
    obtain ⟨span', hspan', hholds'⟩ := holds_simulate h hchains hmoves'
    rw [List.length_append, List.length_singleton, ← Nat.add_assoc] at hspan'
    rw [List.flatMap_append, List.flatMap_singleton, ← List.append_assoc] at hholds'
    exact ⟨span, span', hspan, hspan', hholds.next hholds'⟩

/-- Every simulation follows the path of its program, and lays out the points of its moves. -/
theorem simulate_isLaidOut {s : Settings α} {p : Program} {sim : Simulation α}
    (h : simulate s p = .ok sim) :
    sim.Follows (interpret s p).path ∧ sim.IsLaidOut s.sampling :=
  ⟨follows_simulate h, isLaidOut_simulate h⟩

/-- Two lines under the default settings are laid out: the start, two times forty steps, and ten
samples at each of the two stops. -/
theorem simulate_isLaidOut_corner :
    ∃ sim, simulate (Settings.default : Settings Float32)
        [.ofPairs 1 [('X', 1.0)], .ofPairs 2 [('Y', 1.0)]] = .ok sim ∧
      (sim.Follows (interpret (Settings.default : Settings Float32)
          [.ofPairs 1 [('X', 1.0)], .ofPairs 2 [('Y', 1.0)]]).path ∧
        sim.IsLaidOut (Settings.default : Settings Float32).sampling) ∧
      sim.moves.length = 2 ∧ sim.track.vertices.length = 101 := by
  have hcounts : ∃ sim ∈ (simulate (Settings.default : Settings Float32)
      [.ofPairs 1 [('X', 1.0)], .ofPairs 2 [('Y', 1.0)]]).toOption,
      sim.moves.length = 2 ∧ sim.track.vertices.length = 101 := by
    decide +kernel
  obtain ⟨sim, hsim, hcounts⟩ := exists_simulate_of_toOption hcounts
  exact ⟨sim, hsim, simulate_isLaidOut hsim, hcounts⟩

end Toolpath
