import Mathlib.Analysis.SpecialFunctions.Trigonometric.Deriv
import Mathlib.Topology.Algebra.Module.ModuleTopology
import Toolpath.Proofs.ArcTheorems
import Toolpath.Proofs.TranslationTheorems

/-!
# The velocity of a move

Over the reals a move is parametrised by distance: the point at a ratio of the way runs at one rate
all along the move, the length of the course, and the directions at both ends are those in which it
runs there (`Move.RunsEvenly`, `Move.runsEvenly`). Length, direction and point are three formulas of
their own. They are compared with the velocity of the point, which for an arc has the turn in the
plane and the rise along its normal for its two parts (`Move.arcVelocity`).
-/

namespace Toolpath

namespace Vec3

theorem length_nonneg (v : Vec3 ℝ) : 0 ≤ v.length := Real.sqrt_nonneg _

theorem length_scale (v : Vec3 ℝ) {factor : ℝ} (h : 0 ≤ factor) :
    (v.scale factor).length = v.length * factor := by
  have hsq : (v.scale factor).lengthSq = v.lengthSq * factor ^ 2 := by
    show v.x * factor * (v.x * factor) + v.y * factor * (v.y * factor) +
      v.z * factor * (v.z * factor) = (v.x * v.x + v.y * v.y + v.z * v.z) * factor ^ 2
    ring
  show √(v.scale factor).lengthSq = √v.lengthSq * factor
  rw [hsq, Real.sqrt_mul' _ (sq_nonneg factor), Real.sqrt_sq h]

/-- A vector divided by its length; the zero vector if that is zero. -/
noncomputable def unit (v : Vec3 ℝ) : Vec3 ℝ :=
  if v.length = 0 then ⟨0, 0, 0⟩ else v.map (· / v.length)

theorem direction_eq_unit (v : Vec3 ℝ) : v.direction = v.unit := by
  have hzero : (zero : Vec3 ℝ) = ⟨0, 0, 0⟩ := by
    unfold zero
    norm_num
  have hstretch : (1.0 : ℝ) / v.length = v.length⁻¹ := by norm_num
  unfold direction unit
  dsimp only
  rw [hstretch, hzero]
  rcases v.length_nonneg.eq_or_lt with hlength | hlength
  · rw [← hlength, if_pos rfl, if_neg (by norm_num)]
  · have hpos : (0.0 : ℝ) < v.length⁻¹ := by
      norm_num
      exact hlength
    rw [if_pos ⟨rfl, hpos⟩, if_neg hlength.ne']
    rfl

/-- A stretched vector has the same direction. -/
theorem unit_scale (v : Vec3 ℝ) {factor : ℝ} (h : 0 < factor) : (v.scale factor).unit = v.unit := by
  unfold unit
  rw [length_scale v h.le]
  by_cases hzero : v.length = 0
  · rw [hzero, zero_mul, if_pos rfl, if_pos rfl]
  · rw [if_neg hzero, if_neg (mul_ne_zero hzero h.ne')]
    apply eq_of_get
    intro axis
    cases axis <;> exact mul_div_mul_right _ _ h.ne'

end Vec3

namespace Plane

/-- A vector is as long as the diagonal over its part in a plane and its part along the normal. -/
theorem length_compose (plane : Plane) (v : Vec2 ℝ) (height : ℝ) :
    (plane.compose v height).length = √(v.length ^ 2 + height ^ 2) := by
  have hsq : (plane.compose v height).lengthSq = v.length ^ 2 + height ^ 2 := by
    rw [Vec2.length_sq]
    cases plane <;>
      · simp only [compose, Vec3.lengthSq]
        ring
  show √(plane.compose v height).lengthSq = _
  rw [hsq]

theorem scale_compose (plane : Plane) (v : Vec2 ℝ) (height factor : ℝ) :
    (plane.compose v height).scale factor = plane.compose (v.scale factor) (height * factor) := by
  cases plane <;> rfl

/-- A point runs as its in-plane coordinates and its height do. -/
theorem hasDerivAt_compose (plane : Plane) {p : ℝ → Vec2 ℝ} {v : Vec2 ℝ} {height : ℝ → ℝ}
    {slope ratio : ℝ} (hx : HasDerivAt (fun r => (p r).x) v.x ratio)
    (hy : HasDerivAt (fun r => (p r).y) v.y ratio) (hheight : HasDerivAt height slope ratio)
    (axis : Axis) :
    HasDerivAt (fun r => (plane.compose (p r) (height r)).get axis)
      ((plane.compose v slope).get axis) ratio := by
  cases plane <;> cases axis <;> assumption

end Plane

namespace Move

/-- A vector whose coordinates are the rates at which those of the point at a ratio of the way
change there. -/
def HasVelocityAt (m : Move ℝ) (ratio : ℝ) (v : Vec3 ℝ) : Prop :=
  ∀ axis, HasDerivAt (fun r => (m.pointAt r).get axis) (v.get axis) ratio

/-- There is one velocity at most. -/
theorem HasVelocityAt.unique {m : Move ℝ} {ratio : ℝ} {u v : Vec3 ℝ} (hu : m.HasVelocityAt ratio u)
    (hv : m.HasVelocityAt ratio v) : u = v :=
  Vec3.eq_of_get fun axis => (hu axis).unique (hv axis)

/-- A move along which the point runs at one rate, the length of the course, and whose directions
are those of the point at the ends. -/
structure RunsEvenly (m : Move ℝ) : Prop where
  rate : ∀ ratio, ∃ v, m.HasVelocityAt ratio v ∧ v.length = m.courseLength
  entry : ∀ v, m.HasVelocityAt 0 v → m.entryDirection = v.unit
  exit : ∀ v, m.HasVelocityAt 1 v → m.exitDirection = v.unit

variable {m : Move ℝ}

/-! ## Lines -/

/-- A line has the velocity from its source to its target throughout. -/
theorem hasVelocityAt_line (hshape : m.shape = .line) (ratio : ℝ) :
    m.HasVelocityAt ratio (m.target - m.source) := by
  intro axis
  have hpoint : (fun r => (m.pointAt r).get axis) =
      fun r => m.source.get axis + (m.target - m.source).get axis * r := by
    funext r
    rw [pointAt, hshape]
    dsimp only
    rw [Vec3.get_add, Vec3.get_scale]
  rw [hpoint]
  simpa using ((hasDerivAt_id ratio).const_mul ((m.target - m.source).get axis)).const_add
    (m.source.get axis)

/-- The velocity of a line is as long as its course. -/
theorem length_line (hshape : m.shape = .line) : (m.target - m.source).length = m.courseLength := by
  have hsq : (m.target - m.source).lengthSq = (m.source - m.target).lengthSq := by
    show (m.target.x - m.source.x) * (m.target.x - m.source.x) +
        (m.target.y - m.source.y) * (m.target.y - m.source.y) +
          (m.target.z - m.source.z) * (m.target.z - m.source.z) =
      (m.source.x - m.target.x) * (m.source.x - m.target.x) +
        (m.source.y - m.target.y) * (m.source.y - m.target.y) +
          (m.source.z - m.target.z) * (m.source.z - m.target.z)
    ring
  rw [courseLength, hshape]
  exact congrArg Real.sqrt hsq

/-- A line runs evenly. -/
theorem runsEvenly_line (hshape : m.shape = .line) : m.RunsEvenly where
  rate ratio := ⟨_, hasVelocityAt_line hshape ratio, length_line hshape⟩
  entry v hv := by
    rw [hv.unique (hasVelocityAt_line hshape 0), ← Vec3.direction_eq_unit, entryDirection, hshape]
  exit v hv := by
    rw [hv.unique (hasVelocityAt_line hshape 1), ← Vec3.direction_eq_unit, exitDirection, hshape]

/-! ## Arcs -/

variable {arc : Arc ℝ}

/-- The velocity of an arc where its radius has the given angle: at a right angle to the radius in
the plane, and along the normal as far as the arc rises. -/
noncomputable def arcVelocity (m : Move ℝ) (arc : Arc ℝ) (angle : ℝ) : Vec3 ℝ :=
  arc.plane.compose (Vec2.scale ⟨-Real.sin angle, Real.cos angle⟩ (arc.radius * arc.sweep))
    (m.rise arc.plane)

/-- An arc has the velocity along its circle, and the rise. -/
theorem hasVelocityAt_arc (hshape : m.shape = .arc arc) (ratio : ℝ) :
    m.HasVelocityAt ratio (m.arcVelocity arc (arc.fromAngle + arc.sweep * ratio)) := by
  have hangle : HasDerivAt (fun r => arc.fromAngle + arc.sweep * r) arc.sweep ratio := by
    simpa using ((hasDerivAt_id ratio).const_mul arc.sweep).const_add arc.fromAngle
  have hheight : HasDerivAt (fun r => arc.plane.height m.source + m.rise arc.plane * r)
      (m.rise arc.plane) ratio := by
    simpa using ((hasDerivAt_id ratio).const_mul (m.rise arc.plane)).const_add
      (arc.plane.height m.source)
  intro axis
  simp only [pointAt_arc hshape]
  apply arc.plane.hasDerivAt_compose _ _ hheight
  · apply ((hangle.cos.mul_const arc.radius).const_add arc.center.x).congr_deriv
    rw [Vec2.scale_x]
    ring
  · apply ((hangle.sin.mul_const arc.radius).const_add arc.center.y).congr_deriv
    rw [Vec2.scale_y]
    ring

/-- The velocity of an arc is as long as its course, at every angle. -/
theorem length_arcVelocity (hshape : m.shape = .arc arc) (angle : ℝ) :
    (m.arcVelocity arc angle).length = m.courseLength := by
  have hplanar :
      (Vec2.scale ⟨-Real.sin angle, Real.cos angle⟩ (arc.radius * arc.sweep)).length ^ 2 =
        (arc.radius * |arc.sweep|) ^ 2 := by
    have hone := Real.sin_sq_add_cos_sq angle
    rw [Vec2.length_sq, Vec2.scale_x, Vec2.scale_y, mul_pow arc.radius, sq_abs]
    linear_combination (arc.radius * arc.sweep) ^ 2 * hone
  rw [arcVelocity, Plane.length_compose, hplanar, courseLength, hshape]
  rfl

/-- The direction of an arc is the one in which its point runs, whichever way it turns. -/
theorem arcDirection_eq (hradius : 0 < arc.radius) (hsweep : arc.sweep ≠ 0) (angle : ℝ) :
    m.arcDirection arc angle = (m.arcVelocity arc angle).unit := by
  have hplanar : 0 < arc.radius * |arc.sweep| := mul_pos hradius (abs_pos.2 hsweep)
  have hzero : (0.0 : ℝ) = 0 := by norm_num
  -- the length of the turn has lost its sign, which is put back
  obtain ⟨sign, hsign, hturn⟩ : ∃ sign : ℝ,
      (if arc.sweep < 0.0 then (-1.0 : ℝ) else 1.0) = sign ∧ sign * |arc.sweep| = arc.sweep := by
    rw [hzero]
    rcases hsweep.lt_or_gt with hneg | hpos
    · exact ⟨-1, by rw [if_pos hneg]; norm_num, by rw [abs_of_neg hneg]; ring⟩
    · exact ⟨1, by rw [if_neg hpos.not_gt]; norm_num, by rw [abs_of_pos hpos, one_mul]⟩
  have hscale : m.arcVelocity arc angle =
      (arc.plane.compose ⟨-sign * Real.sin angle, sign * Real.cos angle⟩
        (m.rise arc.plane / (arc.radius * |arc.sweep|))).scale (arc.radius * |arc.sweep|) := by
    rw [Plane.scale_compose, div_mul_cancel₀ _ hplanar.ne', arcVelocity]
    congr 1
    apply Vec2.eq_of_coordinates
    · rw [Vec2.scale_x, Vec2.scale_x]
      linear_combination arc.radius * Real.sin angle * hturn
    · rw [Vec2.scale_y, Vec2.scale_y]
      linear_combination -arc.radius * Real.cos angle * hturn
  rw [hscale, Vec3.unit_scale _ hplanar, ← Vec3.direction_eq_unit]
  unfold arcDirection
  dsimp only
  rw [hsign, hzero]
  exact congrArg (fun slope => (arc.plane.compose _ slope).direction) (if_pos hplanar)

/-- An arc runs evenly. -/
theorem runsEvenly_arc (hshape : m.shape = .arc arc) (hradius : 0 < arc.radius)
    (hsweep : arc.sweep ≠ 0) : m.RunsEvenly where
  rate ratio := ⟨_, hasVelocityAt_arc hshape ratio, length_arcVelocity hshape _⟩
  entry v hv := by
    rw [hv.unique (hasVelocityAt_arc hshape 0), mul_zero, add_zero,
      ← arcDirection_eq hradius hsweep, entryDirection, hshape]
  exit v hv := by
    rw [hv.unique (hasVelocityAt_arc hshape 1), mul_one, ← arcDirection_eq hradius hsweep,
      exitDirection, hshape]

/-- Lines, and arcs with a radius and a turn, run evenly. -/
theorem runsEvenly (h : ∀ arc, m.shape = .arc arc → 0 < arc.radius ∧ arc.sweep ≠ 0) :
    m.RunsEvenly := by
  cases hshape : m.shape with
  | line => exact runsEvenly_line hshape
  | arc arc =>
    obtain ⟨hradius, hsweep⟩ := h arc hshape
    exact runsEvenly_arc hshape hradius hsweep

/-- A clockwise helix that falls along the second axis. -/
noncomputable def fallingHelix : Move ℝ :=
  .make (.arc ⟨.zx, ⟨1, 2⟩, 0, -2, 1⟩) ⟨2, 2, 2⟩ ⟨2 - Real.sin 2, 1, 1 + Real.cos 2⟩ 2 1 .normal

theorem runsEvenly_fallingHelix :
    (∀ arc, fallingHelix.shape = .arc arc → 0 < arc.radius ∧ arc.sweep ≠ 0) ∧
      fallingHelix.RunsEvenly := by
  have harc : ∀ arc, fallingHelix.shape = .arc arc → 0 < arc.radius ∧ arc.sweep ≠ 0 := by
    rintro arc ⟨⟩
    norm_num
  exact ⟨harc, runsEvenly harc⟩

end Move

end Toolpath
