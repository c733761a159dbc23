import Toolpath.Proofs.ArcTheorems
import Toolpath.Proofs.SpanTheorems

/-!
# The chords of an arc

An arc is sampled along equal chords. Over the reals their count is the one that a tolerance asks
for, cut off at the greatest count that is allowed (`chordCount_eq_min`). A wider turn gets no
fewer chords and a looser tolerance no more, and a count that is not cut off keeps the middle of
every chord within the tolerance (`chordCount_keepsTolerance`). That there is a chord and that the
greatest count is kept is true of any numbers (`chordCount_pos`, `chordCount_le`).

How far the middle of a chord lies off the arc is its sagitta. It is measured between points of the
move (`Move.sagitta`); all chords of an arc have the same, also where the arc rises
(`Move.sagitta_eq`).
-/

namespace Toolpath

open Scalar

/-! ## Sagittas -/

/-- The middle between two directions is the one half way, shortened by the turn to it. -/
theorem Vec2.middle_ofAngle (angle half : ℝ) :
    (ofAngle (angle - half)).scale (1 / 2) + (ofAngle (angle + half)).scale (1 / 2) =
      (ofAngle angle).scale (Real.cos half) := by
  apply eq_of_coordinates
  · simp only [add_x, scale_x, ofAngle, Real.cos_add, Real.cos_sub]
    ring
  · simp only [add_y, scale_y, ofAngle, Real.sin_add, Real.sin_sub]
    ring

theorem Plane.lerp_compose (plane : Plane) (u v : Vec2 ℝ) (height height' : ℝ) :
    (plane.compose u height).lerp (plane.compose v height') (1 / 2) =
      plane.compose (u.scale (1 / 2) + v.scale (1 / 2)) (height * (1 / 2) + height' * (1 / 2)) := by
  have hhalf : (1.0 : ℝ) - 1 / 2 = 1 / 2 := by norm_num
  rw [Vec3.lerp, hhalf]
  cases plane <;> rfl

theorem Plane.distance_compose_compose (plane : Plane) (u v : Vec2 ℝ) (height : ℝ) :
    (plane.compose u height).distance (plane.compose v height) = (u - v).length := by
  have hdistance := plane.distance_compose u (plane.compose v height)
  rwa [height_compose, project_compose] at hdistance

/-- Two points in one direction from a centre are as far apart as their distances from it. -/
theorem Vec2.length_sub_ofAngle (center : Vec2 ℝ) (angle far near : ℝ) :
    (center + (ofAngle angle).scale far - (center + (ofAngle angle).scale near)).length =
      |far - near| := by
  have hsub : center + (ofAngle angle).scale far - (center + (ofAngle angle).scale near) =
      (ofAngle angle).scale (far - near) := by
    apply eq_of_coordinates
    · simp only [add_x, sub_x, scale_x]
      ring
    · simp only [add_y, sub_y, scale_y]
      ring
  rw [hsub, length_scale_ofAngle]

namespace Move

variable {m : Move ℝ} {arc : Arc ℝ}

/-- How far the middle of a chord lies off the middle of its piece of the course, where the course
is cut into equal pieces. -/
noncomputable def sagitta (m : Move ℝ) (steps j : ℕ) : ℝ :=
  (m.pointAt ((j + 1 / 2) / steps)).distance
    ((m.pointAt (stepRatio j steps)).lerp (m.pointAt (stepRatio (j + 1) steps)) (1 / 2))

/-- The middle of a chord is as high as that of its piece of the arc, and nearer to the centre. -/
theorem lerp_pointAt_arc (hshape : m.shape = .arc arc) (ratio reach : ℝ) :
    (m.pointAt (ratio - reach)).lerp (m.pointAt (ratio + reach)) (1 / 2) =
      arc.plane.compose (arc.center + (Vec2.ofAngle (arc.fromAngle + arc.sweep * ratio)).scale
          (arc.radius * Real.cos (arc.sweep * reach)))
        (arc.plane.height m.source + m.rise arc.plane * ratio) := by
  have hbefore : arc.fromAngle + arc.sweep * (ratio - reach) =
      arc.fromAngle + arc.sweep * ratio - arc.sweep * reach := by ring
  have hafter : arc.fromAngle + arc.sweep * (ratio + reach) =
      arc.fromAngle + arc.sweep * ratio + arc.sweep * reach := by ring
  have hmiddle := Vec2.middle_ofAngle (arc.fromAngle + arc.sweep * ratio) (arc.sweep * reach)
  have hx := congrArg Vec2.x hmiddle
  have hy := congrArg Vec2.y hmiddle
  rw [pointAt_arc hshape, pointAt_arc hshape, Plane.lerp_compose, hbefore, hafter]
  congr 1
  · apply Vec2.eq_of_coordinates
    · simp only [Vec2.add_x, Vec2.scale_x] at hx ⊢
      linear_combination arc.radius * hx
    · simp only [Vec2.add_y, Vec2.scale_y] at hy ⊢
      linear_combination arc.radius * hy
  · ring

/-- The middle of a chord is nearer to the centre by its sagitta. -/
theorem distance_lerp_pointAt_arc (hshape : m.shape = .arc arc) (hradius : 0 ≤ arc.radius)
    (ratio reach : ℝ) :
    (m.pointAt ratio).distance
        ((m.pointAt (ratio - reach)).lerp (m.pointAt (ratio + reach)) (1 / 2)) =
      arc.radius * (1 - Real.cos (arc.sweep * reach)) := by
  have hnonneg : 0 ≤ arc.radius * (1 - Real.cos (arc.sweep * reach)) :=
    mul_nonneg hradius (sub_nonneg.2 (Real.cos_le_one _))
  rw [lerp_pointAt_arc hshape, pointAt_arc hshape, Plane.distance_compose_compose,
    Vec2.length_sub_ofAngle, ← mul_one_sub, abs_of_nonneg hnonneg]

/-- All chords of an arc have the sagitta of their share of the turn. -/
theorem sagitta_eq (hshape : m.shape = .arc arc) (hradius : 0 ≤ arc.radius) {steps : ℕ}
    (hsteps : 0 < steps) (j : ℕ) :
    m.sagitta steps j = arc.radius * (1 - Real.cos (|arc.sweep| / (2 * steps))) := by
  have hcast : (0 : ℝ) < steps := Nat.cast_pos.2 hsteps
  have hreach : (0 : ℝ) < 1 / (2 * steps) := by positivity
  have hcos : Real.cos (arc.sweep * (1 / (2 * steps))) = Real.cos (|arc.sweep| / (2 * steps)) := by
    rw [← Real.cos_abs, abs_mul, abs_of_pos hreach, mul_one_div]
  have hbefore : (stepRatio j steps : ℝ) = (j + 1 / 2) / steps - 1 / (2 * steps) := by
    show (j : ℝ) / steps = _
    field_simp
    ring
  have hafter : (stepRatio (j + 1) steps : ℝ) = (j + 1 / 2) / steps + 1 / (2 * steps) := by
    show ((j + 1 : ℕ) : ℝ) / steps = _
    push_cast
    field_simp
    ring
  rw [sagitta, hbefore, hafter, distance_lerp_pointAt_arc hshape hradius, hcos]

end Move

/-! ## Counts -/

theorem chordCount_le {ω : Type} [WideScalar ω] (radius sweep tolerance : ω) (maxSteps : ℕ) :
    chordCount radius sweep tolerance maxSteps ≤ max maxSteps 1 := by
  unfold chordCount
  dsimp only
  split_ifs
  · split
    · exact le_rfl
    · split_ifs <;> omega
  · exact le_max_right _ _

/-- Half the widest turn of a chord that keeps within a tolerance. -/
noncomputable def widestHalf (radius tolerance : ℝ) : ℝ := Real.arccos (1 - tolerance / radius)

/-- The count of equal chords with which an arc is kept within a tolerance. A tolerance of a whole
diameter is kept by any chord. -/
noncomputable def neededCount (radius sweep tolerance : ℝ) : ℕ :=
  if tolerance / radius < 2 then max ⌈|sweep| / (2 * widestHalf radius tolerance)⌉₊ 1 else 1

theorem chordCount_eq_min (radius sweep tolerance : ℝ) (maxSteps : ℕ) :
    chordCount radius sweep tolerance maxSteps =
      min (max maxSteps 1) (neededCount radius sweep tolerance) := by
  have hcount : Real.pi / widestHalf radius tolerance * |sweep| / (2 * Real.pi) =
      |sweep| / (2 * widestHalf radius tolerance) := by
    rw [div_mul_eq_mul_div, div_div, mul_left_comm, mul_comm _ Real.pi, mul_left_comm 2,
      mul_div_mul_left _ _ Real.pi_ne_zero]
  have htwo : (2.0 : ℝ) = 2 := by norm_num
  have hone : (1.0 : ℝ) = 1 := by norm_num
  unfold chordCount neededCount
  show (if tolerance / radius < (2.0 : ℝ) then
      if max maxSteps 1 ≤ ⌈Real.pi / Real.arccos (1.0 - tolerance / radius) * |sweep| /
        (2.0 * Real.pi)⌉₊ then max maxSteps 1
      else max ⌈Real.pi / Real.arccos (1.0 - tolerance / radius) * |sweep| / (2.0 * Real.pi)⌉₊ 1
    else 1) = _
  rw [htwo, hone, ← widestHalf, hcount]
  split_ifs <;> omega

section

variable {radius tolerance : ℝ}

theorem neededCount_pos (radius sweep tolerance : ℝ) : 0 < neededCount radius sweep tolerance := by
  unfold neededCount
  split_ifs
  · exact lt_max_of_lt_right Nat.one_pos
  · exact Nat.one_pos

theorem widestHalf_pos (hradius : 0 < radius) (htolerance : 0 < tolerance) :
    0 < widestHalf radius tolerance :=
  Real.arccos_pos.2 (sub_lt_self 1 (div_pos htolerance hradius))

/-- A looser tolerance admits a wider chord. -/
theorem widestHalf_mono (hradius : 0 < radius) {looser : ℝ} (hle : tolerance ≤ looser) :
    widestHalf radius tolerance ≤ widestHalf radius looser :=
  Real.antitone_arccos (sub_le_sub_left (div_le_div_of_nonneg_right hle hradius.le) 1)

/-- A wider turn needs no fewer chords. -/
theorem neededCount_le_of_wider (hradius : 0 < radius) (htolerance : 0 < tolerance)
    {sweep wider : ℝ} (hle : |sweep| ≤ |wider|) :
    neededCount radius sweep tolerance ≤ neededCount radius wider tolerance := by
  have hhalf := widestHalf_pos hradius htolerance
  unfold neededCount
  split_ifs
  · exact max_le_max_right 1 (Nat.ceil_mono (div_le_div_of_nonneg_right hle (by positivity)))
  · exact le_rfl

/-- A looser tolerance needs no more chords. -/
theorem neededCount_le_of_looser (hradius : 0 < radius) (htolerance : 0 < tolerance) (sweep : ℝ)
    {looser : ℝ} (hle : tolerance ≤ looser) :
    neededCount radius sweep looser ≤ neededCount radius sweep tolerance := by
  have hratio : tolerance / radius ≤ looser / radius := div_le_div_of_nonneg_right hle hradius.le
  have hhalf := widestHalf_pos hradius htolerance
  have hwider := widestHalf_mono hradius hle
  by_cases hloose : looser / radius < 2
  · have htight : tolerance / radius < 2 := hratio.trans_lt hloose
    rw [neededCount, neededCount, if_pos hloose, if_pos htight]
    apply max_le_max_right 1 (Nat.ceil_mono _)
    exact div_le_div_of_nonneg_left (abs_nonneg sweep) (by positivity) (by linarith)
  · rw [neededCount, if_neg hloose]
    exact neededCount_pos radius sweep tolerance

/-- A chord up to the widest one keeps within the tolerance. -/
theorem sagitta_le_of_half_le (hradius : 0 < radius) (htolerance : 0 < tolerance)
    (hratio : tolerance / radius < 2) {half : ℝ} (hhalf : 0 ≤ half)
    (hle : half ≤ widestHalf radius tolerance) : radius * (1 - Real.cos half) ≤ tolerance := by
  have hpos : 0 < tolerance / radius := div_pos htolerance hradius
  have hcos : 1 - tolerance / radius ≤ Real.cos half := by
    calc 1 - tolerance / radius = Real.cos (widestHalf radius tolerance) :=
          (Real.cos_arccos (by linarith) (by linarith)).symm
      _ ≤ Real.cos half := Real.cos_le_cos_of_nonneg_of_le_pi hhalf (Real.arccos_le_pi _) hle
  calc radius * (1 - Real.cos half) ≤ radius * (tolerance / radius) :=
        mul_le_mul_of_nonneg_left (by linarith) hradius.le
    _ = tolerance := mul_div_cancel₀ _ hradius.ne'

/-- With the needed count every chord keeps within the tolerance. -/
theorem sagitta_neededCount_le (hradius : 0 < radius) (htolerance : 0 < tolerance) (sweep : ℝ) :
    radius * (1 - Real.cos (|sweep| / (2 * neededCount radius sweep tolerance))) ≤ tolerance := by
  by_cases hratio : tolerance / radius < 2
  · apply sagitta_le_of_half_le hradius htolerance hratio (by positivity)
    have hhalf := widestHalf_pos hradius htolerance
    have hcount : (0 : ℝ) < neededCount radius sweep tolerance :=
      Nat.cast_pos.2 (neededCount_pos radius sweep tolerance)
    have hceil : |sweep| / (2 * widestHalf radius tolerance) ≤
        neededCount radius sweep tolerance := by
      rw [neededCount, if_pos hratio]
      exact (Nat.le_ceil _).trans (Nat.cast_le.2 (le_max_left _ _))
    rw [div_le_iff₀ (by positivity)] at hceil ⊢
    linarith
  · -- the sagitta of any chord is at most the diameter
    rw [div_lt_iff₀ hradius, not_lt] at hratio
    have hcos := Real.neg_one_le_cos (|sweep| / (2 * neededCount radius sweep tolerance))
    nlinarith

/-- A count of chords that fits an arc: at least one chord and at most as many as are allowed. All
have the sagitta of their share of the turn, and that is within the tolerance unless the count is
the greatest one. -/
structure IsChordCount (radius sweep tolerance : ℝ) (maxSteps n : ℕ) : Prop where
  one_le : 1 ≤ n
  le_max : n ≤ max maxSteps 1
  sagitta_eq : ∀ (m : Move ℝ) (arc : Arc ℝ), m.shape = .arc arc → arc.radius = radius →
    arc.sweep = sweep → ∀ j < n, m.sagitta n j = radius * (1 - Real.cos (|sweep| / (2 * n)))
  sagitta_le : n < maxSteps → radius * (1 - Real.cos (|sweep| / (2 * n))) ≤ tolerance

/-- The count of chords fits the arc. It is no less for a wider turn and no greater for a looser
tolerance. -/
theorem chordCount_keepsTolerance (hradius : 0 < radius) (htolerance : 0 < tolerance) (sweep : ℝ)
    (maxSteps : ℕ) :
    IsChordCount radius sweep tolerance maxSteps (chordCount radius sweep tolerance maxSteps) ∧
    (∀ wider : ℝ, |sweep| ≤ |wider| → chordCount radius sweep tolerance maxSteps ≤
      chordCount radius wider tolerance maxSteps) ∧
    (∀ looser : ℝ, tolerance ≤ looser → chordCount radius sweep looser maxSteps ≤
      chordCount radius sweep tolerance maxSteps) := by
  have hpos : 0 < chordCount radius sweep tolerance maxSteps := chordCount_pos _ _ _ _
  refine ⟨?count, ?wider, ?looser⟩
  case count =>
    constructor
    case one_le => exact hpos
    case le_max => exact chordCount_le _ _ _ _
    case sagitta_eq =>
      rintro m arc hshape rfl rfl j -
      exact Move.sagitta_eq hshape hradius.le hpos j
    case sagitta_le =>
      intro hlt
      -- a count below the greatest one is not cut off
      have hneeded : chordCount radius sweep tolerance maxSteps =
          neededCount radius sweep tolerance := by
        rw [chordCount_eq_min] at hlt ⊢
        omega
      rw [hneeded]
      exact sagitta_neededCount_le hradius htolerance sweep
  case wider =>
    intro wider hle
    rw [chordCount_eq_min, chordCount_eq_min]
    exact min_le_min_left _ (neededCount_le_of_wider hradius htolerance hle)
  case looser =>
    intro looser hle
    rw [chordCount_eq_min, chordCount_eq_min]
    exact min_le_min_left _ (neededCount_le_of_looser hradius htolerance sweep hle)

end

/-- Half a turn around the zero point. -/
noncomputable def halfCircle : Arc ℝ := ⟨.xy, ⟨0, 0⟩, 0, Real.pi, 1⟩

/-- A tolerance of half the radius is kept by chords over a third of the half turn on either side,
so that one chord is too wide for half a turn. -/
theorem chordCount_halfCircle : chordCount 1 Real.pi (1 / 2) 4 = 2 := by
  have hwidest : widestHalf 1 (1 / 2) = Real.pi / 3 := by
    have hratio : (1 : ℝ) - 1 / 2 / 1 = Real.cos (Real.pi / 3) := by
      rw [Real.cos_pi_div_three]
      norm_num
    rw [widestHalf, hratio]
    exact Real.arccos_cos (by positivity) (by linarith [Real.pi_pos])
  have hshare : |Real.pi| / (2 * (Real.pi / 3)) = 3 / 2 := by
    rw [abs_of_pos Real.pi_pos]
    field_simp
  have hceil : ⌈(3 / 2 : ℝ)⌉₊ = 2 := by
    rw [Nat.ceil_eq_iff two_ne_zero]
    norm_num
  rw [chordCount_eq_min, neededCount, if_pos (by norm_num), hwidest, hshare, hceil]
  rfl

/-- Two chords of half a circle keep within half its radius. -/
theorem chordCount_keepsTolerance_halfCircle :
    (0 : ℝ) < 1 ∧ (0 : ℝ) < 1 / 2 ∧ |Real.pi| ≤ |2 * Real.pi| ∧ (1 / 2 : ℝ) ≤ 1 ∧
      2 < 4 ∧ IsChordCount 1 Real.pi (1 / 2) 4 2 ∧
      2 ≤ chordCount 1 (2 * Real.pi) (1 / 2) 4 ∧ chordCount 1 Real.pi 1 4 ≤ 2 ∧
      (Move.make (.arc halfCircle) ⟨1, 0, 0⟩ ⟨-1, 0, 0⟩ 600 1 .normal).sagitta 2 1 ≤ 1 / 2 := by
  have hhalf : (0 : ℝ) < 1 / 2 := by norm_num
  have hwider : |Real.pi| ≤ |2 * Real.pi| := by
    rw [abs_mul, abs_of_pos (two_pos : (0 : ℝ) < 2)]
    linarith [abs_nonneg Real.pi]
  have hlooser : (1 / 2 : ℝ) ≤ 1 := by norm_num
  obtain ⟨hcount, hwiderCount, hlooserCount⟩ :=
    chordCount_keepsTolerance one_pos hhalf Real.pi 4
  have hwiderCount := hwiderCount (2 * Real.pi) hwider
  have hlooserCount := hlooserCount 1 hlooser
  rw [chordCount_halfCircle] at hcount hwiderCount hlooserCount
  refine ⟨one_pos, hhalf, hwider, hlooser, by decide, hcount, hwiderCount, hlooserCount, ?_⟩
  rw [hcount.sagitta_eq _ halfCircle rfl rfl rfl 1 (by decide)]
  exact hcount.sagitta_le (by decide)

end Toolpath
