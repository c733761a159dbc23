import Toolpath.Proofs.ArcTheorems

/-!
# Arcs of a programmed radius

Two circles with one radius run through the ends of a chord, and on each of them two arcs lead from
the one end to the other. The direction and the sign of a programmed radius choose one of these
arcs:

* the centre lies off the middle of the chord, to the left of it for a positive `bulge` and to the
  right for a negative one (`circleOfRadius_eq`);
* seen from the centre, the target lies to the left of the start for a positive bulge, less than
  half a turn away, and to the right for a negative one (`sweep_aboveMiddle`);
* so a positive radius turns by at most half a turn in the programmed direction, and a negative one
  by at least half a turn (`Machine.arcMove_of_radius`).

Over the reals both ends lie on the circle, unless the radius is too short for the chord and is
taken for that of a half circle.
-/

namespace Toolpath

open Scalar

/-! ## Direction angles -/

/-- To the left lie the angles of the first half turn. -/
theorem atan2_mem_of_pos {y : ℝ} (hy : 0 < y) (x : ℝ) : 0 < atan2 y x ∧ atan2 y x < Real.pi := by
  have hnonneg : 0 ≤ atan2 y x := Complex.arg_nonneg_iff.2 hy.le
  have hle : atan2 y x ≤ Real.pi := Complex.arg_le_pi _
  refine ⟨lt_of_le_of_ne hnonneg fun hzero => ?_, lt_of_le_of_ne hle fun hpi => ?_⟩
  · exact hy.ne' (Complex.arg_eq_zero_iff.1 hzero.symm).2
  · exact hy.ne' (Complex.arg_eq_pi_iff.1 hpi).2

/-- To the right lie the angles below zero. -/
theorem atan2_mem_of_neg {y : ℝ} (hy : y < 0) (x : ℝ) : -Real.pi < atan2 y x ∧ atan2 y x < 0 :=
  ⟨Complex.neg_pi_lt_arg _, Complex.arg_neg_iff.2 hy⟩

theorem atan2_zero_of_neg {x : ℝ} (hx : x < 0) : atan2 0 x = Real.pi :=
  Complex.arg_eq_pi_iff.2 ⟨hx, rfl⟩

namespace Machine

/-! ## The turn -/

/-- A turn in the programmed direction. -/
def TurnsAs (clockwise : Bool) (turn : ℝ) : Prop := if clockwise then turn < 0 else 0 < turn

/-- The turn that ends at an angle: one on the other side is reached the other way round. -/
noncomputable def turnTo (angle : ℝ) (clockwise : Bool) : ℝ :=
  if clockwise ∧ 0 ≤ angle then angle - 2 * Real.pi
  else if ¬ clockwise ∧ angle ≤ 0 then angle + 2 * Real.pi
  else angle

variable {angle : ℝ}

theorem turnTo_clockwise_of_nonneg (h : 0 ≤ angle) : turnTo angle true = angle - 2 * Real.pi :=
  if_pos ⟨rfl, h⟩

theorem turnTo_clockwise_of_neg (h : angle < 0) : turnTo angle true = angle := by
  unfold turnTo
  rw [if_neg fun h' => h.not_ge h'.2, if_neg fun h' => h'.1 rfl]

theorem turnTo_counterclockwise_of_nonpos (h : angle ≤ 0) :
    turnTo angle false = angle + 2 * Real.pi := by
  unfold turnTo
  rw [if_neg fun h' => Bool.false_ne_true h'.1, if_pos ⟨Bool.false_ne_true, h⟩]

theorem turnTo_counterclockwise_of_pos (h : 0 < angle) : turnTo angle false = angle := by
  unfold turnTo
  rw [if_neg fun h' => Bool.false_ne_true h'.1, if_neg fun h' => h.not_ge h'.2]

/-- An angle to the left is turned to directly counter-clockwise, and around the other way
clockwise. -/
theorem turnsAs_turnTo_of_pos (hlo : 0 < angle) (hhi : angle < Real.pi) (clockwise : Bool) :
    TurnsAs clockwise (turnTo angle clockwise) ∧
      if clockwise then Real.pi < |turnTo angle clockwise|
      else |turnTo angle clockwise| < Real.pi := by
  cases clockwise with
  | true =>
    have hneg : angle - 2 * Real.pi < 0 := by linarith
    rw [turnTo_clockwise_of_nonneg hlo.le, abs_of_neg hneg]
    exact ⟨hneg, show Real.pi < -(angle - 2 * Real.pi) by linarith⟩
  | false =>
    rw [turnTo_counterclockwise_of_pos hlo, abs_of_pos hlo]
    exact ⟨hlo, hhi⟩

/-- An angle to the right is turned to directly clockwise, and around the other way
counter-clockwise. -/
theorem turnsAs_turnTo_of_neg (hlo : -Real.pi < angle) (hhi : angle < 0) (clockwise : Bool) :
    TurnsAs clockwise (turnTo angle clockwise) ∧
      if clockwise then |turnTo angle clockwise| < Real.pi
      else Real.pi < |turnTo angle clockwise| := by
  cases clockwise with
  | true =>
    rw [turnTo_clockwise_of_neg hhi, abs_of_neg hhi]
    exact ⟨hhi, show -angle < Real.pi by linarith⟩
  | false =>
    have hpos : 0 < angle + 2 * Real.pi := by linarith
    rw [turnTo_counterclockwise_of_nonpos hhi.le, abs_of_pos hpos]
    exact ⟨hpos, show Real.pi < angle + 2 * Real.pi by linarith⟩

/-- Half a turn is one in either direction. -/
theorem turnsAs_turnTo_pi (clockwise : Bool) :
    TurnsAs clockwise (turnTo Real.pi clockwise) ∧ |turnTo Real.pi clockwise| = Real.pi := by
  have hpi := Real.pi_pos
  cases clockwise with
  | true =>
    have hneg : Real.pi - 2 * Real.pi < 0 := by linarith
    rw [turnTo_clockwise_of_nonneg hpi.le, abs_of_neg hneg]
    exact ⟨hneg, by ring⟩
  | false =>
    rw [turnTo_counterclockwise_of_pos hpi, abs_of_pos hpi]
    exact ⟨hpi, rfl⟩

/-- The cross product of the directions to both ends has the sign of the height, and for no height
the ends lie opposite. -/
theorem sweep_eq_turnTo (chord : Vec2 ℝ) (height : ℝ) (clockwise : Bool) :
    sweep (aboveMiddle chord height) (chord - aboveMiddle chord height) clockwise =
      turnTo (atan2 (chord.length ^ 2 * height / 2) (chord.length ^ 2 * (height ^ 2 - 1) / 4))
        clockwise := by
  have htau : (tau : ℝ) = 2 * Real.pi := rfl
  have hzero : (0.0 : ℝ) = 0 := by norm_num
  have hcross : -(aboveMiddle chord height).x * (chord - aboveMiddle chord height).y +
      (aboveMiddle chord height).y * (chord - aboveMiddle chord height).x =
        chord.length ^ 2 * height / 2 := by
    rw [Vec2.length_sq, Vec2.sub_x, Vec2.sub_y]
    simp only [aboveMiddle]
    ring
  have hdot : -(aboveMiddle chord height).x * (chord - aboveMiddle chord height).x -
      (aboveMiddle chord height).y * (chord - aboveMiddle chord height).y =
        chord.length ^ 2 * (height ^ 2 - 1) / 4 := by
    rw [Vec2.length_sq, Vec2.sub_x, Vec2.sub_y]
    simp only [aboveMiddle]
    ring
  unfold sweep turnTo
  simp only [hcross, hdot, hzero, htau]

/-- Around a centre above the middle of a chord, counted to the right for a clockwise turn, the
turn is less than half a turn; it is more than that around one below, and half a turn around the
middle itself. -/
theorem sweep_aboveMiddle {chord : Vec2 ℝ} (hchord : 0 < chord.length) (height : ℝ)
    (clockwise : Bool) {turn : ℝ}
    (hturn : turn = sweep (aboveMiddle chord height) (chord - aboveMiddle chord height) clockwise) :
    TurnsAs clockwise turn ∧
      (0 < (if clockwise then -height else height) → |turn| < Real.pi) ∧
      ((if clockwise then -height else height) < 0 → Real.pi < |turn|) ∧
      (height = 0 → |turn| = Real.pi) := by
  have hsq := pow_pos hchord 2
  rw [sweep_eq_turnTo] at hturn
  subst hturn
  -- the sign of the height is the side on which the target is seen from the centre
  rcases lt_trichotomy height 0 with hheight | rfl | hheight
  · obtain ⟨hlo, hhi⟩ := atan2_mem_of_neg (y := chord.length ^ 2 * height / 2) (by nlinarith)
      (chord.length ^ 2 * (height ^ 2 - 1) / 4)
    obtain ⟨hturns, hsize⟩ := turnsAs_turnTo_of_neg hlo hhi clockwise
    refine ⟨hturns, ?_, ?_, fun h => absurd h hheight.ne⟩ <;> cases clockwise
    · exact fun h => absurd h hheight.not_gt
    · exact fun _ => hsize
    · exact fun _ => hsize
    · exact fun h => absurd h (neg_pos.2 hheight).not_gt
  · have hhalf : atan2 (chord.length ^ 2 * 0 / 2) (chord.length ^ 2 * (0 ^ 2 - 1) / 4) =
        Real.pi := by
      rw [mul_zero, zero_div]
      exact atan2_zero_of_neg (by linarith)
    obtain ⟨hturns, hsize⟩ := turnsAs_turnTo_pi clockwise
    rw [hhalf]
    refine ⟨hturns, fun h => absurd h ?_, fun h => absurd h ?_, fun _ => hsize⟩ <;> simp
  · obtain ⟨hlo, hhi⟩ := atan2_mem_of_pos (y := chord.length ^ 2 * height / 2) (by positivity)
      (chord.length ^ 2 * (height ^ 2 - 1) / 4)
    obtain ⟨hturns, hsize⟩ := turnsAs_turnTo_of_pos hlo hhi clockwise
    refine ⟨hturns, ?_, ?_, fun h => absurd h hheight.ne'⟩ <;> cases clockwise
    · exact fun _ => hsize
    · exact fun h => absurd h (neg_neg_of_pos hheight).not_gt
    · exact fun h => absurd h hheight.not_gt
    · exact fun _ => hsize

/-- A positive radius puts the centre on the inner side of the turn, a negative one on the outer
side, and the radius of a half circle on the chord. -/
theorem bulge_cases {chord : Vec2 ℝ} (hchord : 0 < chord.length) (clockwise : Bool) {radius : ℝ}
    (hlong : chord.length ^ 2 ≤ 4 * radius ^ 2) :
    (4 * radius ^ 2 = chord.length ^ 2 ∧ bulge chord clockwise radius = 0) ∨
      4 * radius ^ 2 ≠ chord.length ^ 2 ∧
        (0 < radius →
          0 < if clockwise then -bulge chord clockwise radius else bulge chord clockwise radius) ∧
        (radius < 0 →
          (if clockwise then -bulge chord clockwise radius
            else bulge chord clockwise radius) < 0) := by
  unfold bulge
  rcases hlong.eq_or_lt with heq | hlt
  · left
    rw [← heq, sub_self, Real.sqrt_zero, zero_div, mul_zero]
    exact ⟨rfl, rfl⟩
  · right
    have hpos : 0 < √(4 * radius ^ 2 - chord.length ^ 2) / chord.length :=
      div_pos (Real.sqrt_pos.2 (sub_pos.2 hlt)) hchord
    refine ⟨hlt.ne', fun hradius => ?_, fun hradius => ?_⟩
    · rw [decide_eq_false hradius.le.not_gt]
      cases clockwise <;> simpa using hpos
    · rw [decide_eq_true hradius]
      cases clockwise <;> simpa using hpos

/-- A radius that is long enough for its chord is the distance of the centre from both ends. -/
theorem length_aboveMiddle_bulge {chord : Vec2 ℝ} (hchord : 0 < chord.length) (clockwise : Bool)
    {radius : ℝ} (hlong : chord.length ^ 2 ≤ 4 * radius ^ 2) :
    (aboveMiddle chord (bulge chord clockwise radius)).length = |radius| ∧
      (chord - aboveMiddle chord (bulge chord clockwise radius)).length = |radius| := by
  obtain ⟨hnear, hfar⟩ := length_sq_aboveMiddle_bulge hchord clockwise radius
  rw [max_eq_left hlong] at hnear hfar
  rw [← abs_of_nonneg (Vec2.length_nonneg (aboveMiddle _ _)),
    ← abs_of_nonneg (Vec2.length_nonneg (chord - _))]
  exact ⟨(sq_eq_sq_iff_abs_eq_abs _ _).1 (mul_left_cancel₀ four_ne_zero hnear),
    (sq_eq_sq_iff_abs_eq_abs _ _).1 (mul_left_cancel₀ four_ne_zero hfar)⟩

end Machine

/-! ## The arc -/

/-- An arc between two ends that a radius has been programmed for: a circle of this radius through
both ends, and on it the shorter arc for a positive radius and the longer one for a negative
radius. -/
structure Arc.IsOfRadius (arc : Arc ℝ) (source target : Vec3 ℝ) (clockwise : Bool) (radius : ℝ) :
    Prop where
  source_distance : (arc.plane.project source - arc.center).length = |radius|
  target_distance : (arc.plane.project target - arc.center).length = |radius|
  radius_eq : arc.radius = |radius|
  direction : Machine.TurnsAs clockwise arc.sweep
  shorter : 0 < radius → |arc.sweep| ≤ Real.pi
  longer : radius < 0 → Real.pi ≤ |arc.sweep|
  half : |arc.sweep| = Real.pi →
    4 * radius ^ 2 = (arc.plane.project target - arc.plane.project source).length ^ 2

namespace Machine

variable {m : Machine ℝ} {b : Block} {target : Vec3 ℝ} {clockwise : Bool} {radius : ℝ}

/-- The chord of an arc from the position of the machine to a target. -/
noncomputable def chordTo (m : Machine ℝ) (target : Vec3 ℝ) : Vec2 ℝ :=
  m.plane.project target - m.plane.project m.position

/-- The arc around the chosen centre is one of the programmed radius, as long as this spans the
chord. -/
theorem isOfRadius_arcOf (hchord : 0 < (m.chordTo target).length)
    (hlong : (m.chordTo target).length ^ 2 ≤ 4 * radius ^ 2) :
    (m.arcOf ⟨aboveMiddle (m.chordTo target) (bulge (m.chordTo target) clockwise radius), |radius|⟩
      target clockwise).IsOfRadius m.position target clockwise radius := by
  obtain ⟨hnear, hfar⟩ := length_aboveMiddle_bulge hchord clockwise hlong
  obtain ⟨hdirection, hless, hmore, hhalf⟩ := sweep_aboveMiddle hchord
    (bulge (m.chordTo target) clockwise radius) clockwise rfl
  have hcases := bulge_cases hchord clockwise hlong
  constructor
  case source_distance =>
    rw [← hnear, ← Vec2.length_neg (aboveMiddle _ _)]
    congr 1
    apply Vec2.eq_of_coordinates <;> exact sub_add_cancel_left _ _
  case target_distance =>
    show (m.plane.project target - _).length = |radius|
    rw [project_sub_center]
    exact hfar
  case radius_eq => rfl
  case direction => exact hdirection
  case shorter =>
    intro hradius
    rcases hcases with ⟨-, hzero⟩ | ⟨-, hpos, -⟩
    · exact (hhalf hzero).le
    · exact (hless (hpos hradius)).le
  case longer =>
    intro hradius
    rcases hcases with ⟨-, hzero⟩ | ⟨-, -, hneg⟩
    · exact (hhalf hzero).ge
    · exact (hmore (hneg hradius)).le
  case half =>
    intro hturn
    rcases hcases with ⟨heq, -⟩ | ⟨-, hpos, hneg⟩
    · exact heq
    · -- any other arc turns by less than half a turn or by more
      have hne : radius ≠ 0 := by
        rintro rfl
        rw [zero_pow two_ne_zero, mul_zero] at hlong
        exact absurd (pow_pos hchord 2) hlong.not_gt
      rcases lt_or_gt_of_ne hne with hradius | hradius
      · exact absurd hturn (hmore (hneg hradius)).ne'
      · exact absurd hturn (hless (hpos hradius)).ne

/-- A block with a radius has the circle of that radius, or is rejected for its reason. -/
theorem circle_of_radius (m : Machine ℝ) (target : Vec3 ℝ) (clockwise : Bool)
    (h : b.value? 'R' = some radius) :
    m.circle b target clockwise = if (m.chordTo target).length ^ 2 ≤ 1e-12 then
        .error (.invalidRadius b.line radius .coincidentEnds)
      else if 4 * radius ^ 2 - (m.chordTo target).length ^ 2 <
          -1e-6 * max (4 * radius ^ 2) ((m.chordTo target).length ^ 2) then
        .error (.invalidRadius b.line radius .shortRadius)
      else .ok ⟨aboveMiddle (m.chordTo target) (bulge (m.chordTo target) clockwise radius),
        |radius|⟩ := by
  unfold circle
  rw [h]
  dsimp only
  rw [← chordTo, circleOfRadius_eq]
  split_ifs <;> rfl

/-- A programmed radius is rejected exactly where the ends of the arc coincide or where the radius
is too short for them. Any other one is drawn; where it reaches from end to end, the arc is the
shorter or the longer one of this radius, by its sign. -/
theorem arcMove_of_radius (m : Machine ℝ) (target : Vec3 ℝ) (clockwise : Bool)
    (h : b.value? 'R' = some radius) :
    ((∃ fault, m.circle b target clockwise = .error (.invalidRadius b.line radius fault)) ↔
      (m.chordTo target).length ^ 2 ≤ 1e-12 ∨ 4 * radius ^ 2 - (m.chordTo target).length ^ 2 <
        -1e-6 * max (4 * radius ^ 2) ((m.chordTo target).length ^ 2)) ∧
    ((∃ fault, m.circle b target clockwise = .error (.invalidRadius b.line radius fault)) ∨
      ∃ move arc, m.arcMove b target clockwise = .ok move ∧ move.source = m.position ∧
        move.target = target ∧ move.shape = .arc arc ∧ arc.plane = m.plane ∧
        ((m.chordTo target).length ^ 2 ≤ 4 * radius ^ 2 →
          arc.IsOfRadius m.position target clockwise radius)) := by
  have hcircle := circle_of_radius m target clockwise h
  -- the two checks of a radius, in their order; an arc that passes both is drawn
  by_cases hsame : (m.chordTo target).length ^ 2 ≤ 1e-12
  · rw [if_pos hsame] at hcircle
    exact ⟨iff_of_true ⟨_, hcircle⟩ (.inl hsame), .inl ⟨_, hcircle⟩⟩
  rw [if_neg hsame] at hcircle
  by_cases hshort : 4 * radius ^ 2 - (m.chordTo target).length ^ 2 <
      -1e-6 * max (4 * radius ^ 2) ((m.chordTo target).length ^ 2)
  · rw [if_pos hshort] at hcircle
    exact ⟨iff_of_true ⟨_, hcircle⟩ (.inr hshort), .inl ⟨_, hcircle⟩⟩
  rw [if_neg hshort] at hcircle
  have hchord : 0 < (m.chordTo target).length := by
    apply lt_of_le_of_ne (Vec2.length_nonneg _)
    intro hzero
    rw [← hzero] at hsame
    norm_num at hsame
  have hmove : m.arcMove b target clockwise = .ok (.make (.arc (m.arcOf ⟨aboveMiddle
      (m.chordTo target) (bulge (m.chordTo target) clockwise radius), |radius|⟩ target clockwise))
      m.position target m.feedRate b.line .normal) := by
    unfold arcMove
    rw [hcircle]
  refine ⟨iff_of_false ?_ (not_or.2 ⟨hsame, hshort⟩), .inr ⟨_, _, hmove, rfl, rfl, rfl, rfl,
    isOfRadius_arcOf hchord⟩⟩
  rintro ⟨fault, hfault⟩
  rw [hcircle] at hfault
  cases hfault

/-- A line that asks for the longer one of two arcs. -/
def longArcBlock : Block := .ofPairs 1 [('G', 2.0), ('X', 10.0), ('R', -10.0)]

theorem value?_longArcBlock : longArcBlock.value? 'R' = some (-10 : ℝ) := by
  have hdatum : Number.doubleDatum (-10.0) = .finite true (5 * 2 ^ 50) (-49) := by decide +kernel
  have hten : (Number.doubleDatum (-10.0)).toReal = -10 := by
    rw [hdatum]
    norm_num [Number.Datum.toReal]
  exact congrArg some hten

/-- From the zero point the arc leads to its target by more than half a turn. -/
theorem arcMove_of_radius_longArcBlock :
    longArcBlock.value? 'R' = some (-10 : ℝ) ∧
      ∃ move arc, (initial (Settings.default : Settings ℝ)).arcMove longArcBlock ⟨10, 0, 0⟩ true =
        .ok move ∧ move.shape = .arc arc ∧ arc.radius = 10 ∧ arc.sweep < 0 ∧
        Real.pi < |arc.sweep| := by
  have hlength : ((initial (Settings.default : Settings ℝ)).chordTo ⟨10, 0, 0⟩).length ^ 2 =
      100 := by
    rw [Vec2.length_sq]
    show (10 - 0.0 : ℝ) ^ 2 + (0 - 0.0) ^ 2 = 100
    norm_num
  obtain ⟨hrejects, hdraws⟩ := arcMove_of_radius (initial (Settings.default : Settings ℝ))
    ⟨10, 0, 0⟩ true value?_longArcBlock
  rw [hlength] at hrejects hdraws
  rcases hdraws with hfault | ⟨move, arc, hmove, -, -, hshape, hplane, harc⟩
  · have hbad := hrejects.1 hfault
    norm_num at hbad
  obtain harc := harc (by norm_num)
  have hmore := harc.longer (by norm_num)
  refine ⟨value?_longArcBlock, move, arc, hmove, hshape, ?_, harc.direction,
    lt_of_le_of_ne hmore fun hhalf => ?_⟩
  · rw [harc.radius_eq]
    norm_num
  · have hsame := harc.half hhalf.symm
    rw [hplane] at hsame
    have hchord : (Plane.project (initial (Settings.default : Settings ℝ)).plane ⟨10, 0, 0⟩ -
        Plane.project (initial (Settings.default : Settings ℝ)).plane
          (initial (Settings.default : Settings ℝ)).position).length ^ 2 = 100 := hlength
    rw [hchord] at hsame
    norm_num at hsame

end Machine

end Toolpath
