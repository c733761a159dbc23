import Mathlib.Analysis.SpecialFunctions.Complex.Arg
import Toolpath.Proofs.ArcTheorems
import Toolpath.Proofs.LookupTheorems

/-!
# Junctions

Over the reals the sampled polyline runs through the ends of the moves, except where an arc has
been given a centre that is not as far from its target as from its source. Nothing compares the
two distances, and the arc ends on its circle, beside the target (`Simulation.MeetsEnds`).

* The planned moves take the courses of the path (`courses_simulate`), whose moves meet their ends
  (`Machine.meetsEnds_execute`).
* The last vertex in the span of a move is where the move is drawn to (`exists_span`).
* The next move starts at the target (`source_eq_target`), so the gap between the two is the
  distance of the target from the circle.
-/

namespace Toolpath

/-! ## Courses -/

namespace Move

/-- Planning changes no course. -/
theorem Replanned.course {α : Type} [Scalar α] {m planned : Move α} {acceleration : α}
    (h : (m.limited acceleration).Replanned planned) : planned.course = m.course := by
  rw [h]
  rfl

theorem course_eq_iff {α : Type} {m n : Move α} :
    m.course = n.course ↔ m.shape = n.shape ∧ m.source = n.source ∧ m.target = n.target := by
  rw [course, course, Prod.mk.injEq, Prod.mk.injEq]

variable {m drawn : Move ℝ}

theorem pointAt_of_course (h : m.course = drawn.course) : m.pointAt = drawn.pointAt := by
  obtain ⟨hshape, hsource, htarget⟩ := course_eq_iff.1 h
  funext ratio
  simp only [pointAt, rise, hshape, hsource, htarget]

/-- Whether a move meets its ends is decided by its course. -/
theorem meetsEnds_of_course (h : m.course = drawn.course) :
    m.offCircle = drawn.offCircle ∧ m.tolerance = drawn.tolerance ∧
      (drawn.MeetsEnds → m.MeetsEnds) := by
  have hpoint := pointAt_of_course h
  obtain ⟨hshape, hsource, htarget⟩ := course_eq_iff.1 h
  have hoff : m.offCircle = drawn.offCircle := by simp only [offCircle, hshape, htarget]
  have htolerance : m.tolerance = drawn.tolerance := by simp only [tolerance, hshape]
  refine ⟨hoff, htolerance, fun hmeets => ⟨?_, ?_⟩⟩
  · rw [hpoint, hsource, htolerance]
    exact hmeets.start
  · rw [hpoint, htarget, hoff]
    exact hmeets.stop

/-- The last sample of a move is where it is drawn to. -/
theorem getLast?_points (m : Move ℝ) (settings : SamplingSettings ℝ) :
    (m.points settings).getLast? = some (m.pointAt 1) := by
  have hpos := m.stepCount_pos settings
  rw [points, List.getLast?_map, List.getLast?_range, if_neg hpos.ne', Option.map_some,
    Nat.sub_add_cancel hpos, stepRatio_self hpos]

end Move

/-! ## Simulations -/

section Simulate

variable {s : Settings ℝ} {p : Program} {sim : Simulation ℝ}

/-- The planned moves take the courses of the path. -/
theorem courses_simulate (h : simulate s p = .ok sim) :
    sim.moves.map Move.course = (interpret s p).path.toList.map Move.course := by
  obtain ⟨-, -, -, hreplanned⟩ := sampled_simulate h
  rw [List.forall₂_map_left_iff] at hreplanned
  rw [← List.forall₂_eq_eq_eq, List.forall₂_map_left_iff, List.forall₂_map_right_iff]
  exact hreplanned.flip.imp fun _ _ hm => Move.Replanned.course hm

theorem exists_drawn (h : simulate s p = .ok sim) {i : ℕ} {m : Move ℝ}
    (hm : sim.moves[i]? = some m) :
    ∃ drawn, (interpret s p).path.toList[i]? = some drawn ∧ m.course = drawn.course := by
  have hsame := congrArg (·[i]?) (courses_simulate h)
  simp only [List.getElem?_map, hm, Option.map_some] at hsame
  obtain ⟨drawn, hdrawn, hcourse⟩ := Option.map_eq_some_iff.1 hsame.symm
  exact ⟨drawn, hdrawn, hcourse.symm⟩

/-- A move starts where the one before it is headed. -/
theorem source_eq_target (h : simulate s p = .ok sim) {i : ℕ} {m next : Move ℝ}
    (hm : sim.moves[i]? = some m) (hnext : sim.moves[i + 1]? = some next) :
    next.source = m.target := by
  obtain ⟨-, hconnected⟩ := Interpretation.isConnected_run s Track.enter (.empty s.sampling) p
  obtain ⟨drawn, hdrawn, hsame⟩ := exists_drawn h hm
  obtain ⟨drawn', hdrawn', hsame'⟩ := exists_drawn h hnext
  obtain ⟨hi, rfl⟩ := List.getElem?_eq_some_iff.1 hdrawn
  obtain ⟨hi', rfl⟩ := List.getElem?_eq_some_iff.1 hdrawn'
  have hchain := List.isChain_iff_getElem.1 hconnected.source_next i hi'
  rw [(Move.course_eq_iff.1 hsame').2.1, (Move.course_eq_iff.1 hsame).2.2]
  exact hchain

/-- The last vertex in the span of a move is where the move is drawn to. -/
theorem exists_span (h : simulate s p = .ok sim) {i : ℕ} {m : Move ℝ}
    (hm : sim.moves[i]? = some m) :
    ∃ span, sim.track.spans[i]? = some span ∧
      sim.track.vertices[span.endVertex - 1]?.map Prod.fst = some (m.pointAt 1) := by
  obtain ⟨hi, rfl⟩ := List.getElem?_eq_some_iff.1 hm
  have hpath : sim.chains.flatMap Chain.moves =
      sim.moves.take i ++ sim.moves[i] :: sim.moves.drop (i + 1) := by
    rw [List.getElem_cons_drop, List.take_append_drop]
    rfl
  obtain ⟨before, c, after, moves, rest, hchains, hmoves, hfront⟩ := exists_split hpath
  obtain ⟨span, hspan, hholds⟩ := holds_simulate h hchains hmoves
  have hplace : (before.flatMap Chain.moves).length + moves.length = i := by
    rw [← List.length_append, hfront, List.length_take, min_eq_left hi.le]
  rw [hplace] at hspan
  refine ⟨span, hspan, ?_⟩
  rw [vertices_simulate h, List.getElem?_map, Option.map_map, ← Move.getLast?_points _ s.sampling,
    hholds.getLast?_points]
  rfl

end Simulate

/-- The polyline of a simulation meets the ends of its moves, as far as their circles do. -/
structure Simulation.MeetsEnds (s : Settings ℝ) (p : Program) (sim : Simulation ℝ) : Prop where
  /-- The moves take the courses of the path. -/
  courses_eq : sim.moves.map Move.course = (interpret s p).path.toList.map Move.course
  /-- Every move starts at its source, and misses its target by as much as that lies off the
  circle. -/
  meets : ∀ m ∈ sim.moves, m.MeetsEnds
  /-- A block has asked for it, and if the block gives a radius, the target lies on the circle. -/
  issued : ∀ m ∈ sim.moves, ∃ b, m.IsIssued s p b ∧
    ((b.value? 'R' : Option ℝ).isSome → m.offCircle ≤ m.tolerance)
  /-- The polyline leaves the span of a move where the move is drawn to. -/
  last_vertex : ∀ (i : ℕ) (m : Move ℝ), sim.moves[i]? = some m →
    ∃ span, sim.track.spans[i]? = some span ∧
      sim.track.vertices[span.endVertex - 1]?.map Prod.fst = some (m.pointAt 1)
  /-- The next move starts as far from there as the target lies off the circle. -/
  gap : ∀ (i : ℕ) (m next : Move ℝ), sim.moves[i]? = some m → sim.moves[i + 1]? = some next →
    (m.pointAt 1).distance next.source = m.offCircle

/-- Under accepted settings every program is simulated, and the polyline meets the ends of the
moves as far as their circles do. -/
theorem simulate_meetsEnds (s : Settings ℝ) (p : Program) (h : s.validate = .ok ()) :
    ∃ sim, simulate s p = .ok sim ∧ sim.MeetsEnds s p := by
  obtain ⟨sim, hsim⟩ := exists_simulate_real h p
  have hissued : ∀ m ∈ sim.moves, ∃ b, m.IsIssued s p b ∧ m.MeetsEnds ∧
      ((b.value? 'R' : Option ℝ).isSome → m.offCircle ≤ m.tolerance) := by
    intro m hm
    obtain ⟨i, hi, rfl⟩ := List.mem_iff_getElem.1 hm
    -- a simulated move has the course of the move drawn for it, and that is all its ends depend on
    obtain ⟨drawn, hdrawn, hsame⟩ := exists_drawn hsim (List.getElem?_eq_getElem hi)
    have hpath := Array.mem_toList_iff.1 (List.mem_of_getElem? hdrawn)
    obtain ⟨b, front, back, move, hp, hmove, hcourse⟩ := isIssued_interpret s p drawn hpath
    obtain ⟨hmeets, hradius⟩ := Machine.meetsEnds_execute hmove
    obtain ⟨hoff, htolerance, hcarry⟩ := Move.meetsEnds_of_course (hsame.trans hcourse)
    refine ⟨b, ⟨front, back, move, hp, hmove, hsame.trans hcourse⟩, hcarry hmeets, ?_⟩
    rwa [hoff, htolerance]
  refine ⟨sim, hsim, ?_⟩
  constructor
  case courses_eq => exact courses_simulate hsim
  case meets =>
    intro m hm
    obtain ⟨-, -, hmeets, -⟩ := hissued m hm
    exact hmeets
  case issued =>
    intro m hm
    obtain ⟨b, hb, -, hradius⟩ := hissued m hm
    exact ⟨b, hb, hradius⟩
  case last_vertex => exact fun i m hm => exists_span hsim hm
  case gap =>
    intro i m next hm hnext
    obtain ⟨-, -, hmeets, -⟩ := hissued m (List.mem_of_getElem? hm)
    rw [source_eq_target hsim hm hnext]
    exact hmeets.stop

/-! ## A target off the circle -/

/-- An arc of radius one to a target at nine times the radius from the centre. -/
def offsetArc : Block := .ofPairs 1 [('G', 2.0), ('X', 10.0), ('I', 1.0)]

theorem values_offsetArc : (offsetArc.value? 'I' : Option ℝ) = some 1 ∧
    (offsetArc.axisWords : AxisWords ℝ) = ⟨some 10, none, none⟩ := by
  have hone : Number.doubleDatum 1.0 = .finite false (2 ^ 52) (-52) := by decide +kernel
  have hten : Number.doubleDatum 10.0 = .finite false (5 * 2 ^ 50) (-49) := by decide +kernel
  have hfirst : (Number.doubleDatum 1.0).toReal = 1 := by
    rw [hone]
    norm_num [Number.Datum.toReal]
  have hsecond : (Number.doubleDatum 10.0).toReal = 10 := by
    rw [hten]
    norm_num [Number.Datum.toReal]
  have hx : (offsetArc.value? 'X' : Option ℝ) = some 10 := congrArg some hsecond
  refine ⟨congrArg some hfirst, ?_⟩
  rw [← hx]
  rfl

/-- The machine that the arc starts from. -/
noncomputable def turningMachine : Machine ℝ :=
  { Machine.initial .default with motion := .clockwise }

theorem prepared_offsetArc :
    (Machine.initial (Settings.default : Settings ℝ)).prepared .default offsetArc =
      turningMachine := by
  have hwords : offsetArc.codeWords = [.ofValue 'G' 2.0] := rfl
  have hcode : Effect.ofCode? (Word.ofValue 'G' 2.0).code = some (.motion .clockwise) := by
    decide +kernel
  have hfeed : (Machine.initial (Settings.default : Settings ℝ)).applyFeed offsetArc =
      (.initial .default, []) := rfl
  unfold Machine.prepared Machine.applyCodes
  rw [hfeed, hwords]
  dsimp only
  rw [List.foldl_cons, List.foldl_nil, Machine.applyCode_eq _ hcode]
  rfl

theorem circle_offsetArc (m : Machine ℝ) (hplane : m.plane = .xy) (target : Vec3 ℝ) :
    m.circle offsetArc target true = .ok ⟨⟨1, 0⟩, 1⟩ := by
  have hzero : (0.0 : ℝ) = 0 := by norm_num
  have hradius : (offsetArc.value? 'R' : Option ℝ) = none := rfl
  have hfirst : (offsetArc.value? Plane.xy.firstAxis.centerLetter : Option ℝ) = some 1 :=
    values_offsetArc.1
  have hsecond : (offsetArc.value? Plane.xy.secondAxis.centerLetter : Option ℝ) = none := rfl
  have hlength : (⟨1, 0⟩ : Vec2 ℝ).length = 1 := by
    show Real.sqrt (1 * 1 + 0 * 0) = 1
    norm_num
  have hlong : ¬ (1 : ℝ) ≤ Machine.minRadius := by norm_num [Machine.minRadius]
  simp [Machine.circle, hradius, hplane, hfirst, hsecond, hzero, hlength, hlong]

/-- The arc that the block asks for. -/
noncomputable def offsetMove : Move ℝ :=
  .make (.arc (turningMachine.arcOf ⟨⟨1, 0⟩, 1⟩ ⟨10, 0, 0⟩ true)) turningMachine.position ⟨10, 0, 0⟩
    turningMachine.feedRate offsetArc.line .normal

theorem motionOf_offsetArc :
    turningMachine.motionOf (Settings.default : Settings ℝ).machine offsetArc =
      .ok (some offsetMove) := by
  have hzero : (0.0 : ℝ) = 0 := by norm_num
  have htarget : turningMachine.targetOf (Settings.default : Settings ℝ).machine
      ⟨some 10, none, none⟩ = ⟨10, 0, 0⟩ := by
    simp [Machine.targetOf, turningMachine, Machine.initial, Settings.default,
      MachineSettings.default, MachineSettings.originOffset, DistanceMode.resolve, Vec3.ofAxes,
      Vec3.get, Vec3.zero, hzero]
  unfold Machine.motionOf
  rw [values_offsetArc.2]
  dsimp only
  rw [htarget]
  show (turningMachine.arcMove offsetArc ⟨10, 0, 0⟩ true).map some = _
  rw [Machine.arcMove, circle_offsetArc turningMachine rfl]
  rfl

/-- Its target lies eight off the circle. -/
theorem offCircle_offsetMove : offsetMove.offCircle = 8 := by
  have hzero : (0.0 : ℝ) = 0 := by norm_num
  have hcenter : turningMachine.plane.project offsetMove.target -
      (turningMachine.arcOf ⟨⟨1, 0⟩, 1⟩ ⟨10, 0, 0⟩ true).center = ⟨9, 0⟩ := by
    rw [Machine.project_sub_center]
    apply Vec2.eq_of_coordinates
    · show (10 : ℝ) - 0.0 - 1 = 9
      norm_num
    · show (0 : ℝ) - 0.0 - 0 = 0
      norm_num
  have hlength : (⟨9, 0⟩ : Vec2 ℝ).length = 9 := by
    show Real.sqrt (9 * 9 + 0 * 0) = 9
    rw [mul_zero, add_zero, Real.sqrt_mul_self (by norm_num)]
  show |(turningMachine.plane.project offsetMove.target -
    (turningMachine.arcOf ⟨⟨1, 0⟩, 1⟩ ⟨10, 0, 0⟩ true).center).length - 1| = 8
  rw [hcenter, hlength]
  norm_num

theorem move_offsetArc : ((Machine.initial (Settings.default : Settings ℝ)).execute .default
    offsetArc).move? = some offsetMove := by
  rw [Machine.move_execute, ← Machine.prepared, prepared_offsetArc, motionOf_offsetArc]

/-- It is the only move of the program that consists of the block. -/
theorem exists_move_offsetArc {sim : Simulation ℝ}
    (h : simulate Settings.default [offsetArc] = .ok sim) :
    ∃ m ∈ sim.moves, m.course = offsetMove.course := by
  have hpath : (interpret Settings.default [offsetArc]).path = #[{ offsetMove with index := 0 }] :=
    Interpretation.path_singleton move_offsetArc
  obtain ⟨-, -, -, hreplanned⟩ := sampled_simulate h
  rw [hpath] at hreplanned
  obtain ⟨m, moves, hm, -, hmoves⟩ := List.forall₂_cons_left_iff.1 hreplanned
  exact ⟨m, hmoves ▸ List.mem_cons_self, hm.course⟩

/-- The polyline of the program meets the ends of the arc up to eight. -/
theorem simulate_meetsEnds_offsetArc :
    (Settings.default : Settings ℝ).validate = .ok () ∧
      ∃ sim m, simulate (Settings.default : Settings ℝ) [offsetArc] = .ok sim ∧
        sim.MeetsEnds .default [offsetArc] ∧ m ∈ sim.moves ∧ m.offCircle = 8 := by
  have hvalid : (Settings.default : Settings ℝ).validate = .ok () :=
    Settings.validate_eq_ok.2 Settings.isValid_default
  obtain ⟨sim, hsim, hmeets⟩ := simulate_meetsEnds Settings.default [offsetArc] hvalid
  obtain ⟨m, hm, hcourse⟩ := exists_move_offsetArc hsim
  obtain ⟨hoff, -, -⟩ := Move.meetsEnds_of_course hcourse
  exact ⟨hvalid, sim, m, hsim, hmeets, hm, hoff.trans offCircle_offsetMove⟩

/-- The arc ends on its circle, which its target is far from. -/
theorem simulate_offsetArc :
    (Settings.default : Settings ℝ).validate = .ok () ∧
      ∃ (sim : Simulation ℝ) (m : Move ℝ) (arc : Arc ℝ),
        simulate Settings.default [offsetArc] = .ok sim ∧ m ∈ sim.moves ∧ m.shape = .arc arc ∧
          arc.radius / 1000 < (m.pointAt 1).distance m.target := by
  have hvalid : (Settings.default : Settings ℝ).validate = .ok () :=
    Settings.validate_eq_ok.2 Settings.isValid_default
  obtain ⟨sim, hsim⟩ := exists_simulate_real hvalid [offsetArc]
  obtain ⟨m, hm, hcourse⟩ := exists_move_offsetArc hsim
  obtain ⟨hoff, -, hcarry⟩ := Move.meetsEnds_of_course hcourse
  have hmeets : offsetMove.MeetsEnds := (Machine.meetsEnds_execute move_offsetArc).1
  refine ⟨hvalid, sim, m, _, hsim, hm, congrArg Prod.fst hcourse, ?_⟩
  rw [(hcarry hmeets).stop, hoff, offCircle_offsetMove]
  show (1 : ℝ) / 1000 < 8
  norm_num

end Toolpath
