import Toolpath.Proofs.ModeTheorems
import Toolpath.Proofs.SimulationTheorems

/-!
# Translated machines

In exact arithmetic a program of places draws the same figure wherever the machine starts, as long
as its coordinate origins start with it. A translation moves the initial position and the offsets
of all origins; of the modes, the feed rates and the sampling it changes nothing.

* The target of a block moves with the machine, and so does the circle of an arc, which is found
  from differences alone (`Machine.targetOf_translate`, `Machine.arcMove_translate`).
* A program that selects no displacements makes the translated moves (`interpretation_translate`).
* A translated move is as long, as fast and as steep as before, so that the path is split into the
  translated chains (`Chain.ofPath_translate`) and these are planned alike (`Chain.plan_translate`).
-/

namespace Toolpath

open Scalar

/-! ## The translation -/

section Translation

variable {α : Type} [Arithmetic α]

/-- The arc around the translated centre. -/
def Arc.translate (o : Vec3 α) (a : Arc α) : Arc α :=
  { a with center := a.center + a.plane.project o }

/-- The translated course of a move. -/
def Shape.translate (o : Vec3 α) : Shape α → Shape α
  | line => line
  | arc a => arc (a.translate o)

/-- The same move between the translated points. -/
def Move.translate (o : Vec3 α) (m : Move α) : Move α :=
  { m with shape := m.shape.translate o, source := m.source + o, target := m.target + o }

/-- The chain of the translated moves. -/
def Chain.translate (o : Vec3 α) (c : Chain α) : Chain α := ⟨c.moves.map (Move.translate o)⟩

/-- The machine at the translated position. -/
def Machine.translate (o : Vec3 α) (m : Machine α) : Machine α :=
  { m with position := m.position + o }

/-- Settings with the initial position and all origins translated. -/
def MachineSettings.translate (o : Vec3 α) (s : MachineSettings α) : MachineSettings α :=
  { s with
    initialPosition := s.initialPosition + o
    workOffsets := s.workOffsets.map (· + o) }

/-- Settings of the translated machine. -/
def Settings.translate (o : Vec3 α) (s : Settings α) : Settings α :=
  { s with machine := s.machine.translate o }

end Translation

/-- A program of places: displacements are never selected. -/
def IsAbsolute (p : Program) : Prop := ∀ b ∈ p, Effect.distance .incremental ∉ b.effects

/-- The lines of such a program name places. -/
theorem IsAbsolute.inForce {p : Program} (h : IsAbsolute p) :
    inForce Effect.distance? .absolute p = .absolute := by
  apply inForce_eq_initial
  intro b hb effect heffect mode hmode
  rw [Effect.eq_of_distance? hmode] at heffect
  cases mode with
  | absolute => rfl
  | incremental => exact absurd heffect (h b hb)

/-! ## Points -/

theorem Vec2.add_add_comm (u v o : Vec2 ℝ) : u + o + v = u + v + o :=
  congrArg₂ Vec2.mk (add_right_comm u.x o.x v.x) (add_right_comm u.y o.y v.y)

/-- Differences of plane vectors do not see a translation. -/
theorem Vec2.add_sub_add (u v o : Vec2 ℝ) : u + o - (v + o) = u - v :=
  congrArg₂ Vec2.mk (add_sub_add_right_eq_sub u.x v.x o.x) (add_sub_add_right_eq_sub u.y v.y o.y)

namespace Vec3

theorem get_add (u v : Vec3 ℝ) (axis : Axis) : (u + v).get axis = u.get axis + v.get axis := by
  cases axis <;> rfl

theorem get_sub (u v : Vec3 ℝ) (axis : Axis) : (u - v).get axis = u.get axis - v.get axis := by
  cases axis <;> rfl

theorem get_scale (v : Vec3 ℝ) (factor : ℝ) (axis : Axis) :
    (v.scale factor).get axis = v.get axis * factor := by
  cases axis <;> rfl

theorem add_add_comm (u v o : Vec3 ℝ) : u + o + v = u + v + o := by
  apply eq_of_get
  intro axis
  rw [get_add, get_add, get_add, get_add, add_right_comm]

/-- Differences of points do not see a translation. -/
theorem add_sub_add (u v o : Vec3 ℝ) : u + o - (v + o) = u - v := by
  apply eq_of_get
  intro axis
  rw [get_sub, get_add, get_add, get_sub, add_sub_add_right_eq_sub]

/-- The way between two points is translated point by point. -/
theorem lerp_add (u v o : Vec3 ℝ) (ratio : ℝ) :
    (u + o).lerp (v + o) ratio = u.lerp v ratio + o := by
  apply eq_of_get
  intro axis
  have hone : (1.0 : ℝ) = 1 := by norm_num
  unfold lerp
  rw [get_add, get_add, get_add, get_scale, get_scale, get_scale, get_scale, get_add, get_add, hone]
  ring

end Vec3

namespace Plane

/-- The plane coordinates of a sum are sums. -/
theorem project_add (plane : Plane) (u v : Vec3 ℝ) :
    plane.project (u + v) = plane.project u + plane.project v := by
  cases plane <;> rfl

/-- The height of a sum above the plane is a sum. -/
theorem height_add (plane : Plane) (u v : Vec3 ℝ) :
    plane.height (u + v) = plane.height u + plane.height v := by
  cases plane <;> rfl

/-- A point is put together from translated parts as the translated point. -/
theorem compose_add (plane : Plane) (p : Vec2 ℝ) (height : ℝ) (o : Vec3 ℝ) :
    plane.compose (p + plane.project o) (height + plane.height o) =
      plane.compose p height + o := by
  cases plane <;> rfl

end Plane

/-! ## Moves -/

namespace Move

variable (o : Vec3 ℝ) (m : Move ℝ)

/-- A translated move rises as far. -/
theorem rise_translate (plane : Plane) : (m.translate o).rise plane = m.rise plane := by
  unfold rise translate
  dsimp only
  rw [plane.height_add, plane.height_add, add_sub_add_right_eq_sub]

/-- A translated move is as long. -/
theorem courseLength_translate : (m.translate o).courseLength = m.courseLength := by
  obtain ⟨index, shape, source, target⟩ := m
  cases shape with
  | line =>
    show (source + o - (target + o)).length = (source - target).length
    rw [Vec3.add_sub_add]
  | arc arc => exact congrArg (hypot _) (rise_translate o _ arc.plane)

/-- A move that is made from translated ends is the translated move. -/
theorem make_translate (shape : Shape ℝ) (source target : Vec3 ℝ) (feedRate : ℝ) (line : ℕ)
    (pace : Pace) : make (shape.translate o) (source + o) (target + o) feedRate line pace =
      (make shape source target feedRate line pace).translate o := by
  unfold make
  dsimp only
  exact congrArg (fun length => (⟨0, shape.translate o, source + o, target + o, feedRate, line,
    pace, length, 0.0, 0.0, .rest⟩ : Move ℝ)) (courseLength_translate o
      ⟨0, shape, source, target, feedRate, line, pace, 0.0, 0.0, 0.0, .rest⟩)

theorem arcDirection_translate (arc : Arc ℝ) (angle : ℝ) :
    (m.translate o).arcDirection (arc.translate o) angle = m.arcDirection arc angle := by
  unfold arcDirection
  dsimp only
  rw [show (arc.translate o).plane = arc.plane from rfl, rise_translate]
  rfl

/-- A translated move starts out in the same direction. -/
theorem entryDirection_translate : (m.translate o).entryDirection = m.entryDirection := by
  obtain ⟨index, shape, source, target⟩ := m
  cases shape with
  | line => exact congrArg Vec3.direction (Vec3.add_sub_add target source o)
  | arc arc => exact arcDirection_translate o _ arc arc.fromAngle

/-- A translated move ends in the same direction. -/
theorem exitDirection_translate : (m.translate o).exitDirection = m.exitDirection := by
  obtain ⟨index, shape, source, target⟩ := m
  cases shape with
  | line => exact congrArg Vec3.direction (Vec3.add_sub_add target source o)
  | arc arc => exact arcDirection_translate o _ arc (arc.fromAngle + arc.sweep)

/-- Every point of a move is translated. -/
theorem pointAt_translate (ratio : ℝ) :
    (m.translate o).pointAt ratio = m.pointAt ratio + o := by
  cases hshape : m.shape with
  | line =>
    have htranslated : (m.translate o).shape = .line := congrArg (Shape.translate o) hshape
    unfold pointAt
    rw [hshape, htranslated]
    show m.source + o + (m.target + o - (m.source + o)).scale ratio =
      m.source + (m.target - m.source).scale ratio + o
    rw [Vec3.add_sub_add, Vec3.add_add_comm]
  | arc arc =>
    have htranslated : (m.translate o).shape = .arc (arc.translate o) :=
      congrArg (Shape.translate o) hshape
    unfold pointAt
    rw [hshape, htranslated]
    show arc.plane.compose (arc.center + arc.plane.project o + _)
      (arc.plane.height (m.source + o) + (m.translate o).rise arc.plane * ratio) = _
    rw [rise_translate, arc.plane.height_add, Vec2.add_add_comm, add_right_comm,
      arc.plane.compose_add]
    rfl

/-- The polyline of a translated move is the translated polyline. -/
theorem polyline_translate (steps : ℕ) :
    (m.translate o).polyline steps = (m.polyline steps).map (· + o) := by
  unfold polyline
  rw [List.map_map]
  exact List.map_congr_left fun j _ => m.pointAt_translate o _

/-- A translated move is sampled in as many steps. -/
theorem stepCount_translate (settings : SamplingSettings ℝ) :
    (m.translate o).stepCount settings = m.stepCount settings := by
  unfold stepCount translate
  cases m.shape <;> rfl

theorem isArc_translate : (m.translate o).isArc = m.isArc := by
  unfold isArc translate
  cases m.shape <;> rfl

/-- The limits of a move do not hang on where it lies. -/
theorem limits_translate (acceleration : ℝ) :
    (m.translate o).limits acceleration = m.limits acceleration := by
  unfold limits translate
  cases m.shape <;> rfl

theorem limited_translate (acceleration : ℝ) :
    (m.translate o).limited acceleration = (m.limited acceleration).translate o := by
  unfold limited
  rw [limits_translate, courseLength_translate]
  rfl

end Move

/-! ## Chains -/

section Planning

variable (o : Vec3 ℝ)

/-- The translated path is split into the translated chains, because the directions stay. -/
theorem Chain.ofPath_translate (path : List (Move ℝ)) (acceleration : ℝ) :
    Chain.ofPath (path.map (Move.translate o)) acceleration =
      (Chain.ofPath path acceleration).map (Chain.translate o) := by
  have hflows : ∀ m next : Move ℝ,
      (m.translate o).flowsInto (next.translate o) = m.flowsInto next := by
    intro m next
    unfold Move.flowsInto
    rw [m.exitDirection_translate, next.entryDirection_translate]
  have hlimited : ∀ moves : List (Move ℝ),
      Chain.limited (moves.map (Move.translate o)) acceleration =
        (Chain.limited moves acceleration).translate o := by
    intro moves
    unfold Chain.limited Chain.translate
    dsimp only
    rw [List.map_map, List.map_map]
    exact congrArg Chain.mk (List.map_congr_left fun m _ => m.limited_translate o acceleration)
  rw [Chain.ofPath_eq_map, Chain.ofPath_eq_map, splitBy_map hflows, List.map_map, List.map_map]
  exact List.map_congr_left fun moves _ => hlimited moves

/-! Planning reads lengths and limits, which stay, and writes peaks and profiles. -/

/-- Peaks are lowered alike, since they hang on lengths and accelerations alone. -/
theorem lowerPeaks_translate (before : Option ℝ) (moves : List (Move ℝ)) :
    lowerPeaks before (moves.map (Move.translate o)) =
      (lowerPeaks before moves).map (Move.translate o) := by
  induction moves generalizing before with
  | nil => rfl
  | cons m rest ih => exact congrArg (List.cons _) (ih _)

/-- Translated moves have the same feasible peaks. -/
theorem feasiblePeaks_translate (moves : List (Move ℝ)) :
    feasiblePeaks (moves.map (Move.translate o)) =
      (feasiblePeaks moves).map (Move.translate o) := by
  unfold feasiblePeaks
  rw [lowerPeaks_translate, ← List.map_reverse, lowerPeaks_translate, ← List.map_reverse]

/-- A translated move gets the same profile. -/
theorem Move.withProfile_translate {m planned : Move ℝ} {entrySq exitSq : ℝ}
    (h : m.withProfile entrySq exitSq = .ok planned) :
    (m.translate o).withProfile entrySq exitSq = .ok (planned.translate o) := by
  by_cases hrest : m.AtRest
  · have hrest' : (m.translate o).AtRest := hrest
    rw [withProfile_of_atRest hrest] at h
    cases h
    exact withProfile_of_atRest hrest' entrySq exitSq
  · have hrest' : ¬ (m.translate o).AtRest := hrest
    obtain ⟨accelStop, decelStart, haccel, hdecel, rfl⟩ := (withProfile_eq_ok hrest).1 h
    exact (withProfile_eq_ok hrest').2 ⟨accelStop, decelStart, haccel, hdecel, rfl⟩

/-- Translated moves get the same profiles one after another. -/
theorem profileMoves_translate {before : Option ℝ} {moves planned : List (Move ℝ)}
    (h : profileMoves before moves = .ok planned) :
    profileMoves before (moves.map (Move.translate o)) =
      .ok (planned.map (Move.translate o)) := by
  induction moves generalizing before planned with
  | nil =>
    cases h
    rfl
  | cons m rest ih =>
    rw [profileMoves_cons, bind_eq_ok] at h
    obtain ⟨first, hfirst, h⟩ := h
    obtain ⟨others, hothers, h⟩ := bind_eq_ok.1 h
    cases h
    have hafter : peakAfter ((m :: rest).map (Move.translate o)) 0 = peakAfter (m :: rest) 0 := by
      cases rest <;> rfl
    rw [List.map_cons, profileMoves_cons, ← List.map_cons, hafter, bind_eq_ok]
    exact ⟨_, Move.withProfile_translate o hfirst, bind_eq_ok.2 ⟨_, ih hothers, rfl⟩⟩

/-- A translated chain is planned alike. -/
theorem Chain.plan_translate {c planned : Chain ℝ} (h : c.plan = .ok planned) :
    (c.translate o).plan = .ok (planned.translate o) := by
  rw [Chain.plan_eq_ok] at h ⊢
  unfold Chain.translate
  dsimp only
  rw [feasiblePeaks_translate]
  exact profileMoves_translate o h

end Planning

/-! ## Blocks -/

namespace Machine

variable {o : Vec3 ℝ} {m : Machine ℝ}

/-- The offset of each origin is translated, as long as every origin has one. -/
theorem originOffset_translate {s : MachineSettings ℝ} (hs : s.workOffsets.length = originCount)
    (origin : Origin) : (s.translate o).originOffset origin = s.originOffset origin + o := by
  have hlt : origin.val < s.workOffsets.length := by
    rw [hs]
    exact origin.isLt
  unfold MachineSettings.originOffset MachineSettings.translate
  dsimp only
  rw [List.getElem?_map, List.getElem?_eq_getElem hlt]
  rfl

/-- A place moves with its origin, and the machine with its position. -/
theorem targetOf_translate {s : MachineSettings ℝ} (hs : s.workOffsets.length = originCount)
    (hm : m.distance = .absolute) (axes : AxisWords ℝ) :
    (m.translate o).targetOf (s.translate o) axes = m.targetOf s axes + o := by
  apply Vec3.eq_of_get
  intro axis
  unfold targetOf translate
  dsimp only
  rw [Vec3.get_add, Vec3.get_ofAxes, Vec3.get_ofAxes, originOffset_translate hs, hm]
  cases axes.get axis with
  | none => exact m.position.get_add o axis
  | some x =>
    show x + (s.originOffset m.origin + o).get axis = x + (s.originOffset m.origin).get axis + _
    rw [Vec3.get_add, add_assoc]

/-- A straight move to the translated target is the translated move. -/
theorem straightMove_translate (s : MachineSettings ℝ) (line : ℕ) (pace : Pace)
    (target : Vec3 ℝ) : (m.translate o).straightMove (s.translate o) line pace (target + o) =
      (m.straightMove s line pace target).map (Move.translate o) := by
  unfold straightMove translate
  dsimp only
  rw [Vec3.add_sub_add]
  split_ifs
  · rw [Option.map_some, ← Move.make_translate]
    rfl
  · rfl

/-- The circle is found from the way between the ends. -/
theorem circle_translate (b : Block) (target : Vec3 ℝ) (clockwise : Bool) :
    (m.translate o).circle b (target + o) clockwise = m.circle b target clockwise := by
  unfold circle translate
  dsimp only
  rw [m.plane.project_add, m.plane.project_add, Vec2.add_sub_add]

/-- The arc to the translated target is the translated arc. -/
theorem arcOf_translate (circle : Circle ℝ) (target : Vec3 ℝ) (clockwise : Bool) :
    (m.translate o).arcOf circle (target + o) clockwise =
      (m.arcOf circle target clockwise).translate o := by
  unfold arcOf translate Arc.translate
  dsimp only
  rw [m.plane.project_add, m.plane.project_add, Vec2.add_sub_add, Vec2.add_add_comm]

/-- An arc is accepted or rejected alike, and is the translated one. -/
theorem arcMove_translate (b : Block) (target : Vec3 ℝ) (clockwise : Bool) :
    (m.translate o).arcMove b (target + o) clockwise =
      (m.arcMove b target clockwise).map (Move.translate o) := by
  unfold arcMove
  rw [circle_translate]
  cases m.circle b target clockwise with
  | error problem => rfl
  | ok circle =>
    dsimp only
    rw [arcOf_translate]
    exact congrArg Except.ok (Move.make_translate o (.arc _) m.position target m.feedRate b.line _)

/-- A block in absolute distances asks for the translated motion. -/
theorem motionOf_translate {s : MachineSettings ℝ} (hs : s.workOffsets.length = originCount)
    (hm : m.distance = .absolute) (b : Block) :
    (m.translate o).motionOf (s.translate o) b =
      (m.motionOf s b).map (·.map (Move.translate o)) := by
  have htarget : (m.translate o).targetOf (s.translate o) b.axisWords =
      m.targetOf s b.axisWords + o := targetOf_translate hs hm b.axisWords
  refine motionOf_image rfl (show (m.translate o).motion = m.motion from rfl) ?_ ?_
  · intro pace _
    rw [htarget, straightMove_translate]
  · intro clockwise
    rw [htarget, arcMove_translate]

/-- A feed rate is set alike. -/
theorem applyFeed_translate (m : Machine ℝ) (b : Block) :
    (m.translate o).applyFeed b = ((m.applyFeed b).1.translate o, (m.applyFeed b).2) := by
  unfold applyFeed
  cases (b.value? 'F' : Option ℝ) with
  | none => rfl
  | some x =>
    dsimp only
    split_ifs <;> rfl

/-- Codes set their modes alike, wherever the machine stands. -/
theorem applyCodes_translate (m : Machine ℝ) (s : Strictness) (b : Block) :
    (m.translate o).applyCodes s b = ((m.applyCodes s b).1.translate o, (m.applyCodes s b).2) := by
  have hmachine : ((m.translate o).applyCodes s b).1 = (m.applyCodes s b).1.translate o := by
    rw [applyCodes_fst, applyCodes_fst]
    induction b.effects generalizing m with
    | nil => rfl
    | cons effect rest ih =>
      rw [List.foldl_cons, List.foldl_cons, ← ih]
      cases effect <;> rfl
  exact congrArg (·, (m.applyCodes s b).2) hmachine

/-- Executing a block that names places comes to the translated outcome. -/
theorem execute_translate {s : Settings ℝ} (hs : s.machine.workOffsets.length = originCount)
    {b : Block} (hm : (m.prepared s b).distance = .absolute) :
    (m.translate o).execute (s.translate o) b =
      ⟨(m.execute s b).machine.translate o, (m.execute s b).move?.map (Move.translate o),
        (m.execute s b).problems⟩ :=
  execute_image (m.applyFeed_translate b)
    ((m.applyFeed b).1.applyCodes_translate s.strictness b) (motionOf_translate hs hm b)
    fun _ _ => rfl

end Machine

/-! ## Programs -/

/-- A program of places makes the translated moves on the translated machine, with the same
problems, and stops at the translated position. -/
theorem interpretation_translate {σ σ' : Type} {s : Settings ℝ}
    (hs : s.machine.workOffsets.length = originCount) {p : Program} (hp : IsAbsolute p)
    (listen : σ → Move ℝ → σ) (listen' : σ' → Move ℝ → σ') (before : σ) (before' : σ')
    (o : Vec3 ℝ) :
    (Interpretation.run s listen (.start s before) p).IsImage (Machine.translate o)
      (Move.translate o)
      (Interpretation.run (s.translate o) listen' (.start (s.translate o) before') p) := by
  -- from the end of the program, because the distance mode is that of all blocks so far
  induction p using List.reverseRecOn with
  | nil => exact ⟨rfl, Array.map_empty.symm, rfl⟩
  | append_singleton p b ih =>
    have hbefore := ih fun own hown => hp own (List.mem_append_left [b] hown)
    have hdistance := (Machine.isMode_distance.prepared_run s listen before p b).trans hp.inForce
    have hexecute := Machine.execute_translate (o := o) hs hdistance
    rw [← hbefore.machine_eq] at hexecute
    rw [Interpretation.run_concat, Interpretation.run_concat]
    exact hbefore.step (fun _ _ => rfl) hexecute

end Toolpath
