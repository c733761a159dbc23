import Toolpath.Proofs.BoxTheorems
import Toolpath.Proofs.LayoutTheorems
import Toolpath.Proofs.LookupTheorems
import Toolpath.Proofs.OutcomeTheorems

/-!
# The counters and the box of a simulation

The sampler counts the samples it adds, stretches a box around them and advances a clock, while the
track batches the same samples into runs. Nothing compares the two on the way. Here they are shown
to agree: the counters and the time (`Simulation.IsCounted`), and the box
(`Simulation.IsBoxed`).

* The sampler has counted the points on the track, the copies left out, and its box is the one
  around them all, because a copy does not stretch it (`Sampler.IsTallied`); every action keeps
  this.
* Every run but the first adds one copy to the vertices (`length_entriesOf`).
* The clock runs through the times of the moves and of the stops, and sums them up in order
  (`Chain.ticks`).
-/

namespace Toolpath

open Scalar

/-! ## Copies -/

section Copies

variable {α : Type}

theorem length_ownPoints (entries : List (Entry α)) :
    (ownPoints entries).length = (ownSamples entries).length := List.length_map _

/-- A run that continues another holds one copy. -/
theorem Run.length_entries (continues : Bool) {r : Run α} (hne : r.samples ≠ #[]) :
    (r.entries continues).length =
      (ownPoints (r.entries continues)).length + if continues then 1 else 0 := by
  obtain ⟨first, rest, hsamples⟩ :=
    List.exists_cons_of_ne_nil fun hnil => hne (Array.toList_eq_nil_iff.1 hnil)
  rw [length_ownPoints, Run.entries, hsamples]
  cases continues <;> simp [ownSamples, List.filter_map, Function.comp_def]

/-- Every run but the first holds one copy. -/
theorem length_entriesOf {runs : List (Run α)} (hne : ∀ r ∈ runs, r.samples ≠ #[]) :
    (Run.entriesOf runs).length =
      (ownPoints (Run.entriesOf runs)).length + (runs.length - 1) := by
  induction runs using List.reverseRecOn with
  | nil => rfl
  | append_singleton runs last ih =>
    have hlast := Run.length_entries (!runs.isEmpty) (hne last (by simp))
    have hfront := ih fun r hr => hne r (List.mem_append_left _ hr)
    rw [Run.entriesOf_append, ownPoints_append, List.length_append, List.length_append,
      List.length_append, List.length_singleton, hfront, hlast]
    cases runs with
    | nil => rfl
    | cons first rest =>
      rw [List.length_cons, List.isEmpty_cons, Bool.not_false, if_pos rfl]
      omega

end Copies

variable {α : Type} [Scalar α]

/-! ## What the sampler counts -/

namespace Sampler

/-- The sampler has counted and boxed what is on the track. -/
structure IsTallied (s : Sampler α) : Prop where
  linked : s.track.Linked
  sampleCount_eq : s.sampleCount = (ownPoints s.track.entries).length
  box_eq : s.box = .ofPoints (s.track.samples.map (·.point))

namespace IsTallied

variable {s s' : Sampler α}

theorem setClock (h : s.IsTallied) (clock : α) : IsTallied { s with clock } :=
  ⟨h.linked, h.sampleCount_eq, h.box_eq⟩

/-- A sample that is pushed is counted, and the box takes in its point. -/
theorem push (h : s.IsTallied) (x : Sample α) (pace : Pace) : (s.push x pace).1.IsTallied := by
  have hpoints : ownPoints (s.push x pace).1.track.entries =
      ownPoints s.track.entries ++ [x.point] := by
    show (ownSamples (s.track.add x pace).1.entries).map _ = _
    rw [h.linked.ownSamples_add, List.map_append]
    rfl
  refine ⟨h.linked.add x pace, ?_, ?_⟩
  · rw [hpoints, List.length_append, ← h.sampleCount_eq]
    rfl
  · obtain ⟨copy, hcopy, hadd⟩ := h.linked.samples_add x pace
    have hstretched : (s.push x pace).1.box = s.box.add x.point := rfl
    have hsamples : (s.push x pace).1.track.samples = s.track.samples ++ copy.toList ++ [x] := hadd
    rw [hstretched, hsamples, List.map_append, List.map_singleton, Box.ofPoints_concat, h.box_eq]
    cases copy with
    | none => rw [Option.toList_none, List.append_nil]
    | some last =>
      -- the copy is the last sample, which the box holds already
      have hlast : (s.track.samples.map (·.point)).getLast? = some last.point := by
        rw [List.getLast?_map, hcopy last rfl]
        rfl
      rw [Option.toList_some, List.map_append, List.map_singleton, Box.ofPoints_repeat hlast]

/-- The first sample of a move is counted. -/
theorem opened (h : s.IsTallied) (m : Move α) : (s.opened m).IsTallied := by
  unfold Sampler.opened
  split_ifs
  · exact h.push _ m.pace
  · exact h

/-- The samples of a move are counted. -/
theorem sampleMove (h : s.IsTallied) {m : Move α} (hs' : s.sampleMove m = .ok s') :
    s'.IsTallied := by
  obtain ⟨out, hout, rfl⟩ := sampleMove_eq_ok.1 hs'
  have hsteps : out.1.IsTallied := by
    refine foldlM_keeps (fun u => u.1.IsTallied) ?_ (h.opened m) hout
    intro u j u' hu hstep
    obtain ⟨passage, -, rfl⟩ := pushStep_eq_ok.1 hstep
    exact hu.push _ m.pace
  refine ⟨hsteps.linked.mark _ _ _ _ _, ?_, ?_⟩
  · rw [Track.mark_entries]
    exact hsteps.sampleCount_eq
  · rw [Track.mark_samples]
    exact hsteps.box_eq

/-- The samples of a dwell are counted. -/
theorem dwell (h : s.IsTallied) (point : Vec3 α) (pace : Pace) :
    (s.dwell point pace).IsTallied := by
  unfold Sampler.dwell
  induction List.range s.track.settings.dwellSamples generalizing s with
  | nil => exact h
  | cons _ rest ih =>
    rw [List.foldl_cons]
    exact ih ((h.setClock _).push _ pace)

/-- The samples of a chain are counted. -/
theorem sampleChain (h : s.IsTallied) {c : Chain α} (hs' : s.sampleChain c = .ok s') :
    s'.IsTallied := by
  obtain ⟨u, hu, rfl⟩ := sampleChain_eq_ok.1 hs'
  have hmoves := foldlM_keeps IsTallied (fun _ _ _ hu hstep => hu.sampleMove hstep) h hu
  cases c.moves.getLast? with
  | none => exact hmoves
  | some last => exact hmoves.dwell last.target last.pace

end IsTallied

end Sampler

/-- A simulation has counted its own samples, and boxed all of them. -/
theorem tallied_simulate {s : Settings α} {p : Program} {sim : Simulation α}
    (h : simulate s p = .ok sim) : sim.sampleCount = (ownPoints sim.track.entries).length ∧
      sim.box = .ofPoints (sim.track.samples.map (·.point)) := by
  obtain ⟨planned, sampler, hrun, rfl⟩ := simulate_eq_ok.1 h
  obtain ⟨-, hsampled⟩ := planAndSample_eq_ok.1 hrun
  obtain ⟨hends, hnil, -⟩ := endsOwn_start s p
  have hstart : (Sampler.start (interpret s p).heard).IsTallied := by
    refine ⟨hends.linked, by rw [hnil]; rfl, ?_⟩
    rw [hends.ownPoints_eq_nil.1 hnil]
    rfl
  have htallied := foldlM_keeps Sampler.IsTallied
    (fun _ _ _ hu hstep => hu.sampleChain hstep) hstart hsampled
  dsimp only
  rw [Track.entries_close, Track.samples_close]
  exact ⟨htallied.sampleCount_eq, htallied.box_eq⟩

/-! ## The clock -/

/-- The times by which a planned chain advances the clock: those of its moves, and then those
between the samples of the stop. -/
def Chain.ticks (c : Chain α) (settings : SamplingSettings α) : List α :=
  c.moves.map (·.profile.duration) ++
    (c.moves.getLast?.map fun _ =>
      List.replicate settings.dwellSamples settings.dwellInterval).getD []

namespace Sampler

/-- The clock goes on by the duration of the move. -/
theorem clock_sampleMove {s s' : Sampler α} {m : Move α} (h : s.sampleMove m = .ok s') :
    s'.clock = s.clock + m.profile.duration := by
  obtain ⟨out, -, rfl⟩ := sampleMove_eq_ok.1 h
  rfl

/-- The clock goes on by the durations of the moves, one after another. -/
theorem clock_sampleMoves {s s' : Sampler α} {moves : List (Move α)}
    (h : moves.foldlM sampleMove s = .ok s') :
    s'.clock = (moves.map (·.profile.duration)).foldl (· + ·) s.clock := by
  induction moves generalizing s with
  | nil =>
    cases h
    rfl
  | cons m rest ih =>
    rw [List.foldlM_cons, bind_eq_ok] at h
    obtain ⟨u, hu, hrest⟩ := h
    rw [List.map_cons, List.foldl_cons, ih hrest, clock_sampleMove hu]

/-- The clock goes on by the interval for each sample of a dwell. -/
theorem clock_dwell (s : Sampler α) (point : Vec3 α) (pace : Pace) :
    (s.dwell point pace).clock =
      (List.replicate s.track.settings.dwellSamples s.track.settings.dwellInterval).foldl (· + ·)
        s.clock := by
  rw [← List.length_range (n := s.track.settings.dwellSamples)]
  unfold dwell
  induction List.range s.track.settings.dwellSamples generalizing s with
  | nil => rfl
  | cons _ rest ih =>
    rw [List.foldl_cons, ih, List.length_cons, List.replicate_succ, List.foldl_cons]
    dsimp only
    rw [(onward_push _ _ pace).settings, (onward_push _ _ pace).clock]

/-- The clock goes on by the ticks of the chain. -/
theorem clock_sampleChain {s s' : Sampler α} {c : Chain α} (h : s.sampleChain c = .ok s') :
    s'.clock = (c.ticks s.track.settings).foldl (· + ·) s.clock := by
  obtain ⟨u, hu, rfl⟩ := sampleChain_eq_ok.1 h
  have hmoves := clock_sampleMoves hu
  have hsettings : u.track.settings = s.track.settings :=
    foldlM_keeps (fun u => u.track.settings = s.track.settings)
      (fun u m u' hu hu' => (settings_sampleMove hu').trans hu) rfl hu
  rw [Chain.ticks, List.foldl_append, ← hmoves]
  cases c.moves.getLast? with
  | none => rfl
  | some last =>
    rw [← hsettings]
    exact u.clock_dwell last.target last.pace

/-- The clock goes on by the ticks of the chains, one after another. -/
theorem clock_sampleChains {s s' : Sampler α} {chains : List (Chain α)}
    (h : chains.foldlM sampleChain s = .ok s') :
    s'.clock = (chains.flatMap (·.ticks s.track.settings)).foldl (· + ·) s.clock := by
  induction chains generalizing s with
  | nil =>
    cases h
    rfl
  | cons c rest ih =>
    rw [List.foldlM_cons, bind_eq_ok] at h
    obtain ⟨u, hu, hrest⟩ := h
    rw [List.flatMap_cons, List.foldl_append, ih hrest, clock_sampleChain hu,
      settings_sampleChain hu]

end Sampler

/-! ## Simulations -/

/-- The counters of a simulation agree with its chains and its track. -/
structure Simulation.IsCounted (settings : SamplingSettings α) (sim : Simulation α) : Prop where
  /-- Where there is motion, the samples are its start, the steps of the moves, and the stops. -/
  sampleCount_eq : sim.moves ≠ [] → sim.sampleCount =
    1 + (sim.moves.map (·.stepCount settings)).sum + sim.chains.length * settings.dwellSamples
  /-- Where there is motion, every run but the first holds one vertex more. -/
  vertices_eq : sim.moves ≠ [] → 0 < sim.track.runs.size ∧
    sim.track.vertices.length = sim.sampleCount + (sim.track.runs.size - 1)
  /-- Without motion there is nothing. -/
  still : sim.moves = [] →
    sim.sampleCount = 0 ∧ sim.track.vertices = [] ∧ sim.track.runs = #[] ∧ sim.totalTime = 0.0
  /-- The vertices are counted alike by the track, in the summary and in the buffer. -/
  vertexCount_eq : sim.track.vertexCount = sim.track.vertices.length
  summary_eq : sim.summary.vertices = sim.track.vertices.length
  buffer_eq : ∀ convention,
    (VertexBuffer.ofTrack sim.track convention).vertices.length = sim.track.vertices.length
  /-- The times of the moves and of the stops have been added up in order. -/
  totalTime_eq : sim.totalTime = (sim.chains.flatMap (·.ticks settings)).foldl (· + ·) 0.0

/-- A chain has one point for each step of its moves and for each sample of its dwell. -/
theorem Chain.length_points {c : Chain α} (hne : c.moves ≠ []) (settings : SamplingSettings α) :
    (c.points settings).length =
      (c.moves.map (·.stepCount settings)).sum + settings.dwellSamples := by
  obtain ⟨last, hlast⟩ := Option.ne_none_iff_exists'.1 (mt List.getLast?_eq_none_iff.1 hne)
  have hsteps : ∀ m : Move α, (m.points settings).length = m.stepCount settings := by
    intro m
    rw [Move.points, List.length_map, List.length_range]
  rw [Chain.points, hlast, List.length_append, List.length_flatMap]
  simp [hsteps]

/-- The points of chains are counted by the steps of all moves and by the chains. -/
theorem length_points_chains {chains : List (Chain α)} (hne : ∀ c ∈ chains, c.moves ≠ [])
    (settings : SamplingSettings α) : (chains.flatMap (·.points settings)).length =
      ((chains.flatMap Chain.moves).map (·.stepCount settings)).sum +
        chains.length * settings.dwellSamples := by
  induction chains with
  | nil => simp
  | cons c rest ih =>
    have hfirst := Chain.length_points (hne c List.mem_cons_self) settings
    have hrest := ih fun d hd => hne d (List.mem_cons_of_mem c hd)
    rw [List.flatMap_cons, List.flatMap_cons, List.length_append, List.map_append, List.sum_append,
      hfirst, hrest, List.length_cons, Nat.succ_mul]
    omega

section Simulate

variable {s : Settings α} {p : Program} {sim : Simulation α}

/-- All samples are in the runs, because the last run is closed. -/
theorem entries_simulate (h : simulate s p = .ok sim) :
    sim.track.entries = Run.entriesOf sim.track.runs.toList := by
  obtain ⟨sampler, -, htrack, -⟩ := sampled_simulate h
  rw [htrack]
  exact Track.entries_of_fresh_empty sampler.track.close_fresh

/-- The total time is the sum of all ticks, from the first to the last. -/
theorem totalTime_simulate (h : simulate s p = .ok sim) :
    sim.totalTime = (sim.chains.flatMap (·.ticks s.sampling)).foldl (· + ·) 0.0 := by
  obtain ⟨planned, sampler, hrun, rfl⟩ := simulate_eq_ok.1 h
  obtain ⟨-, hsampled⟩ := planAndSample_eq_ok.1 hrun
  obtain ⟨-, -, hsettings⟩ := endsOwn_start s p
  rw [← hsettings]
  exact Sampler.clock_sampleChains hsampled

/-- Without motion there are no runs. -/
theorem runs_simulate_of_still (h : simulate s p = .ok sim)
    (hpoints : ownPoints sim.track.entries = []) : sim.track.runs = #[] := by
  obtain ⟨hends, -⟩ := drawn_simulate h
  obtain ⟨sampler, -, htrack, -⟩ := sampled_simulate h
  have hsamples : sim.track.samples = [] := hends.ownPoints_eq_nil.1 hpoints
  have hfresh : sim.track.fresh = #[] := by
    rw [htrack]
    exact sampler.track.close_fresh
  rw [Track.samples_of_fresh_empty hfresh] at hsamples
  apply hends.linked.runs_eq
  rw [hends.linked.seed_eq, hsamples]
  rfl

/-- Whatever arithmetic a simulation has been computed in, its counters agree. -/
theorem isCounted_simulate (h : simulate s p = .ok sim) : sim.IsCounted s.sampling := by
  obtain ⟨hcount, -⟩ := tallied_simulate h
  obtain ⟨-, hpoints⟩ := drawn_simulate h
  have hindexed := isIndexed_simulate h
  have hchains := moves_ne_nil_simulate h
  have htime := totalTime_simulate h
  -- the vertices are the entries of the runs, among them the copies
  have hlength : sim.track.vertices.length =
      (ownPoints sim.track.entries).length + (sim.track.runs.size - 1) := by
    have hruns := length_entriesOf fun r hr => hindexed.runs_ne r (Array.mem_toList_iff.1 hr)
    have hsize : sim.track.runs.toList.length = sim.track.runs.size := Array.length_toList
    rw [← entries_simulate h, hsize] at hruns
    rw [vertices_simulate h, List.length_map, hruns]
  have hstill : sim.moves = [] → sim.chains = [] := by
    intro hmoves
    by_contra hne
    obtain ⟨c, rest, hcons⟩ := List.exists_cons_of_ne_nil hne
    have hc : c ∈ sim.chains := by rw [hcons]; exact List.mem_cons_self
    exact hchains c hc (List.flatMap_eq_nil_iff.1 hmoves c hc)
  have htotal : sim.moves ≠ [] → (ownPoints sim.track.entries).length =
      1 + (sim.moves.map (·.stepCount s.sampling)).sum +
        sim.chains.length * s.sampling.dwellSamples := by
    intro hmoves
    obtain ⟨m, rest, hcons⟩ := List.exists_cons_of_ne_nil hmoves
    rw [hpoints, List.length_append, length_points_chains hchains, ← Simulation.moves, hcons,
      List.head?_cons, Nat.add_assoc]
    rfl
  constructor
  case sampleCount_eq => exact fun hmoves => hcount.trans (htotal hmoves)
  case vertices_eq =>
    intro hmoves
    have hne : ownPoints sim.track.entries ≠ [] := by
      intro hnil
      have hzero := htotal hmoves
      rw [hnil, List.length_nil] at hzero
      omega
    refine ⟨Nat.pos_of_ne_zero fun hzero => hne ?_, by rw [hlength, hcount]⟩
    rw [entries_simulate h, Array.size_eq_zero_iff.1 hzero]
    rfl
  case still =>
    intro hmoves
    have hnil : ownPoints sim.track.entries = [] := by
      rw [hpoints, hmoves, hstill hmoves]
      rfl
    have hruns := runs_simulate_of_still h hnil
    refine ⟨by rw [hcount, hnil]; rfl, ?_, hruns, by rw [htime, hstill hmoves]; rfl⟩
    rw [Track.vertices, hruns]
    rfl
  case vertexCount_eq => exact hindexed.vertexCount_eq
  case summary_eq => exact hindexed.vertexCount_eq
  case buffer_eq => exact fun convention => List.length_map _
  case totalTime_eq => exact htime

end Simulate

/-! ## Exact time -/

/-- Exact times may be added in any order. -/
theorem foldl_add_eq_sum (times : List ℝ) (start : ℝ) :
    times.foldl (· + ·) start = start + times.sum := by
  induction times generalizing start with
  | nil => simp
  | cons time rest ih => rw [List.foldl_cons, ih, List.sum_cons, add_assoc]

/-- Over the reals the times of chains that have moves are those of the moves, and one stop for each
chain. -/
theorem sum_ticks {chains : List (Chain ℝ)} (hne : ∀ c ∈ chains, c.moves ≠ [])
    (settings : SamplingSettings ℝ) : (chains.flatMap (·.ticks settings)).sum =
      ((chains.flatMap Chain.moves).map (·.profile.duration)).sum +
        chains.length * (settings.dwellSamples * settings.dwellInterval) := by
  induction chains with
  | nil => simp
  | cons c rest ih =>
    obtain ⟨last, hlast⟩ := Option.ne_none_iff_exists'.1
      (mt List.getLast?_eq_none_iff.1 (hne c List.mem_cons_self))
    have hown : (c.ticks settings).sum = (c.moves.map (·.profile.duration)).sum +
        settings.dwellSamples * settings.dwellInterval := by
      rw [Chain.ticks, hlast, Option.map_some, Option.getD_some, List.sum_append,
        List.sum_replicate, nsmul_eq_mul]
    have hrest := ih fun d hd => hne d (List.mem_cons_of_mem c hd)
    rw [List.flatMap_cons, List.flatMap_cons, List.sum_append, List.map_append, List.sum_append,
      hown, hrest, List.length_cons]
    push_cast
    ring

/-- The counters of a simulation agree, and its moves are those of the path. Over the reals, where
under accepted settings every program is simulated, the total time is that of the moves and of the
stops. -/
theorem simulate_isCounted (p : Program) :
    (∀ (s : Settings Float32) (sim : Simulation Float32), simulate s p = .ok sim →
      sim.Follows (interpret s p).path ∧ sim.IsCounted s.sampling) ∧
    ∀ s : Settings ℝ, s.validate = .ok () → ∃ sim, simulate s p = .ok sim ∧
      (sim.Follows (interpret s p).path ∧ sim.IsCounted s.sampling) ∧
      sim.totalTime = (sim.moves.map (·.profile.duration)).sum +
        sim.chains.length * (s.sampling.dwellSamples * s.sampling.dwellInterval) := by
  refine ⟨fun s sim h => ⟨follows_simulate h, isCounted_simulate h⟩, fun s hs => ?_⟩
  obtain ⟨sim, hsim⟩ := exists_simulate_real hs p
  refine ⟨sim, hsim, ⟨follows_simulate hsim, isCounted_simulate hsim⟩, ?_⟩
  have hzero : (0.0 : ℝ) = 0 := by norm_num
  rw [totalTime_simulate hsim, foldl_add_eq_sum, hzero, zero_add,
    sum_ticks (moves_ne_nil_simulate hsim)]
  rfl

/-- Two lines around a corner in single precision, and one line over the reals. The corner comes to
the start, two times forty steps, and ten samples at each of the two stops. -/
theorem simulate_isCounted_corner :
    (Settings.default : Settings ℝ).validate = .ok () ∧
    (∃ sim, simulate (Settings.default : Settings Float32)
        [.ofPairs 1 [('X', 1.0)], .ofPairs 2 [('Y', 1.0)]] = .ok sim ∧
      sim.IsCounted (Settings.default : Settings Float32).sampling ∧
      sim.moves.length = 2 ∧ sim.sampleCount = 101 ∧ sim.track.vertices.length = 101) ∧
    ∃ sim, simulate (Settings.default : Settings ℝ) unitLine = .ok sim ∧
      sim.IsCounted (Settings.default : Settings ℝ).sampling ∧ sim.moves.length = 1 := by
  have hvalid : (Settings.default : Settings ℝ).validate = .ok () :=
    Settings.validate_eq_ok.2 Settings.isValid_default
  have hcounts : ∃ sim ∈ (simulate (Settings.default : Settings Float32)
      [.ofPairs 1 [('X', 1.0)], .ofPairs 2 [('Y', 1.0)]]).toOption,
      sim.moves.length = 2 ∧ sim.sampleCount = 101 ∧ sim.track.vertices.length = 101 := by
    decide +kernel
  obtain ⟨sim, hsim, hcounts⟩ := exists_simulate_of_toOption hcounts
  obtain ⟨hsingle, -⟩ := simulate_isCounted [.ofPairs 1 [('X', 1.0)], .ofPairs 2 [('Y', 1.0)]]
  obtain ⟨-, hreal⟩ := simulate_isCounted unitLine
  obtain ⟨exact, hexact, ⟨hfollows, hcounted⟩, -⟩ := hreal Settings.default hvalid
  obtain ⟨drawn, hpath, -⟩ := path_unitLine
  have hlength := hfollows.length_eq
  rw [hpath] at hlength
  exact ⟨hvalid, ⟨sim, hsim, (hsingle _ sim hsim).2, hcounts⟩, exact, hexact, hcounted, hlength⟩

/-! ## The box -/

/-- The box of a simulation agrees with its vertices. -/
structure Simulation.IsBoxed (sim : Simulation Float32) : Prop where
  /-- It is the box around all vertices, the copies among them. -/
  box_eq : sim.box = .ofPoints (sim.track.vertices.map Prod.fst)
  /-- It is the box of the buffer, in the coordinates of either renderer. -/
  zUp_eq : (VertexBuffer.ofTrack sim.track .zUp).box = sim.box
  yUp_eq : (VertexBuffer.ofTrack sim.track .yUp).box = sim.box.toYUp
  /-- Where there is motion, it holds the vertices and no more. -/
  tight : sim.moves ≠ [] → sim.box.IsTight (sim.track.vertices.map Prod.fst)
  /-- Without motion all of these are empty. -/
  still : sim.moves = [] → sim.box = .empty ∧
    ∀ convention, (VertexBuffer.ofTrack sim.track convention).box = .empty

/-- The box of a buffer is that around its vertices. -/
theorem VertexBuffer.box_ofTrack (t : Track α) (convention : AxisConvention) :
    (ofTrack t convention).box =
      .ofPoints ((t.vertices.map Prod.fst).map convention.remap) := by
  unfold ofTrack
  dsimp only
  rw [List.map_map, List.map_map]
  rfl

/-- Whatever the vertices are, the box of a simulation is the one around them. -/
theorem box_simulate {s : Settings α} {p : Program} {sim : Simulation α}
    (h : simulate s p = .ok sim) : sim.box = .ofPoints (sim.track.vertices.map Prod.fst) := by
  rw [(tallied_simulate h).2, vertices_simulate h, ← Track.map_sample_entries, List.map_map,
    List.map_map]
  rfl

/-- Where all vertices are finite, the box agrees with them. -/
theorem isBoxed_simulate {s : Settings Float32} {p : Program} {sim : Simulation Float32}
    (h : simulate s p = .ok sim) (hfinite : ∀ v ∈ sim.track.vertices, v.1.IsFinite) :
    sim.IsBoxed := by
  have hbox := box_simulate h
  have hcounted := isCounted_simulate h
  have hpoints : ∀ v ∈ sim.track.vertices.map Prod.fst, v.IsFinite := by
    intro v hv
    obtain ⟨vertex, hvertex, rfl⟩ := List.mem_map.1 hv
    exact hfinite vertex hvertex
  have hyUp : (VertexBuffer.ofTrack sim.track .yUp).box = sim.box.toYUp := by
    rw [VertexBuffer.box_ofTrack, Box.ofPoints_remap hpoints, hbox]
  have hzUp : (VertexBuffer.ofTrack sim.track .zUp).box = sim.box := by
    have hsame : (AxisConvention.zUp.remap : Vec3 Float32 → Vec3 Float32) = id := rfl
    rw [VertexBuffer.box_ofTrack, hsame, List.map_id, hbox]
  constructor
  case box_eq => exact hbox
  case zUp_eq => exact hzUp
  case yUp_eq => exact hyUp
  case tight =>
    intro hmoves
    -- the first move has a sample at its start, so there is a vertex
    have hne : sim.track.vertices.map Prod.fst ≠ [] := by
      rw [← List.length_pos_iff, List.length_map, (hcounted.vertices_eq hmoves).2,
        hcounted.sampleCount_eq hmoves]
      omega
    rw [hbox]
    exact Box.isTight_ofPoints hpoints hne
  case still =>
    intro hmoves
    obtain ⟨-, hvertices, -⟩ := hcounted.still hmoves
    refine ⟨by rw [hbox, hvertices]; rfl, fun convention => ?_⟩
    rw [VertexBuffer.box_ofTrack, hvertices]
    rfl

/-- Where all vertices of a simulation are finite, its box agrees with them, and its moves are those
of the path. -/
theorem simulate_isBoxed {s : Settings Float32} {p : Program} {sim : Simulation Float32}
    (h : simulate s p = .ok sim) (hfinite : ∀ v ∈ sim.track.vertices, v.1.IsFinite) :
    sim.Follows (interpret s p).path ∧ sim.IsBoxed :=
  ⟨follows_simulate h, isBoxed_simulate h hfinite⟩

/-- Two lines around a corner have finite vertices, so their box agrees with them. It reaches from
the origin to the corner behind. -/
theorem simulate_isBoxed_corner :
    ∃ sim : Simulation Float32, simulate Settings.default
        [.ofPairs 1 [('X', 1.0)], .ofPairs 2 [('Y', 1.0)]] = .ok sim ∧
      (∀ v ∈ sim.track.vertices, v.1.IsFinite) ∧
      (sim.Follows (interpret Settings.default
        [.ofPairs 1 [('X', 1.0)], .ofPairs 2 [('Y', 1.0)]]).path ∧ sim.IsBoxed) ∧
      sim.moves.length = 2 ∧ sim.box = ⟨⟨0.0, 0.0, 0.0⟩, ⟨1.0, 1.0, 0.0⟩⟩ := by
  have hrun : ∃ sim ∈ (simulate (Settings.default : Settings Float32)
      [.ofPairs 1 [('X', 1.0)], .ofPairs 2 [('Y', 1.0)]]).toOption,
      (∀ v ∈ sim.track.vertices, isFinite v.1.x = true ∧ isFinite v.1.y = true ∧
        isFinite v.1.z = true) ∧
      sim.moves.length = 2 ∧ sim.box = ⟨⟨0.0, 0.0, 0.0⟩, ⟨1.0, 1.0, 0.0⟩⟩ := by
    decide +kernel
  obtain ⟨sim, hsim, hvertices, hcounts⟩ := exists_simulate_of_toOption hrun
  have hpoints : ∀ v ∈ sim.track.vertices, v.1.IsFinite :=
    fun v hv => ⟨(hvertices v hv).1, (hvertices v hv).2.1, (hvertices v hv).2.2⟩
  exact ⟨sim, hsim, hpoints, simulate_isBoxed hsim hpoints, hcounts⟩

end Toolpath
