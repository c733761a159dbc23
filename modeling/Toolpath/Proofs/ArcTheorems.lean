import Mathlib.Analysis.SpecialFunctions.Complex.Arg
import Toolpath.Scalar.Real
import Toolpath.Proofs.PathTheorems

/-!
# The ends of a move

An arc is drawn from four numbers that are computed apart: its centre, its radius, the angle of its
start and its sweep. Over the reals they fit together as far as the circle fits the ends:

* the computed angles are those of the source and of the target, seen from the centre, whichever
  way the arc turns (`Vec2.hasAngle_atan2`, `Machine.hasAngle_sweep`);
* so an arc ends in the direction of its target, and misses it by as much as the target lies off
  the circle (`Move.MeetsEnds`, `Machine.meetsEnds_arcOf`);
* every circle runs through the source, up to a thousandth of its radius, and that of a programmed
  radius through the target as well (`Circle.Fits`, `Machine.fits_circle`). A circle around a
  programmed centre need not: its radius is the distance of the source.
-/

namespace Toolpath

open Scalar

/-! ## Plane vectors -/

namespace Vec2

@[simp] theorem add_x (u v : Vec2 ℝ) : (u + v).x = u.x + v.x := rfl

@[simp] theorem add_y (u v : Vec2 ℝ) : (u + v).y = u.y + v.y := rfl

@[simp] theorem sub_x (u v : Vec2 ℝ) : (u - v).x = u.x - v.x := rfl

@[simp] theorem sub_y (u v : Vec2 ℝ) : (u - v).y = u.y - v.y := rfl

@[simp] theorem scale_x (v : Vec2 ℝ) (k : ℝ) : (v.scale k).x = v.x * k := rfl

@[simp] theorem scale_y (v : Vec2 ℝ) (k : ℝ) : (v.scale k).y = v.y * k := rfl

theorem eq_of_coordinates {u v : Vec2 ℝ} (hx : u.x = v.x) (hy : u.y = v.y) : u = v := by
  cases u
  cases v
  exact congrArg₂ Vec2.mk hx hy

theorem length_nonneg (v : Vec2 ℝ) : 0 ≤ v.length := Real.sqrt_nonneg _

theorem length_sq (v : Vec2 ℝ) : v.length ^ 2 = v.x ^ 2 + v.y ^ 2 := by
  have hsq : v.lengthSq = v.x ^ 2 + v.y ^ 2 := by rw [lengthSq, sq, sq]
  rw [length, hsq]
  exact Real.sq_sqrt (by positivity)

theorem length_neg (v : Vec2 ℝ) : (⟨-v.x, -v.y⟩ : Vec2 ℝ).length = v.length := by
  rw [length, length, lengthSq, lengthSq, neg_mul_neg, neg_mul_neg]

/-- A plane vector as a complex number. -/
def toComplex (v : Vec2 ℝ) : ℂ := ⟨v.x, v.y⟩

theorem norm_toComplex (v : Vec2 ℝ) : ‖v.toComplex‖ = v.length := by
  rw [Complex.norm_def, Complex.normSq_apply]
  rfl

/-- The direction with an angle. -/
noncomputable def ofAngle (angle : ℝ) : Vec2 ℝ := ⟨Real.cos angle, Real.sin angle⟩

/-- A full turn leads back to the same direction. -/
theorem ofAngle_add_tau (angle : ℝ) : ofAngle (angle + tau) = ofAngle angle := by
  have htau : (tau : ℝ) = 2 * Real.pi := rfl
  rw [ofAngle, htau, Real.cos_add_two_pi, Real.sin_add_two_pi]
  rfl

theorem ofAngle_sub_tau (angle : ℝ) : ofAngle (angle - tau) = ofAngle angle := by
  rw [← ofAngle_add_tau (angle - tau), sub_add_cancel]

/-- A vector has the direction `angle` if it is that direction stretched to its length. -/
def HasAngle (v : Vec2 ℝ) (angle : ℝ) : Prop := (ofAngle angle).scale v.length = v

theorem hasAngle_iff {v : Vec2 ℝ} {angle : ℝ} :
    v.HasAngle angle ↔ (v.length : ℂ) * Complex.exp (angle * Complex.I) = v.toComplex := by
  rw [HasAngle, Complex.ext_iff, Complex.re_ofReal_mul, Complex.im_ofReal_mul,
    Complex.exp_ofReal_mul_I_re, Complex.exp_ofReal_mul_I_im, mul_comm, mul_comm v.length]
  constructor
  · intro h
    exact ⟨congrArg x h, congrArg y h⟩
  · rintro ⟨hx, hy⟩
    exact eq_of_coordinates hx hy

/-- A vector has the angle that is computed from its coordinates. -/
theorem hasAngle_atan2 (v : Vec2 ℝ) : v.HasAngle (atan2 v.y v.x) := by
  rw [hasAngle_iff, ← norm_toComplex]
  exact Complex.norm_mul_exp_arg_mul_I v.toComplex

/-- Turned by the angle between them, one vector gets the direction of another. -/
theorem HasAngle.add {u : Vec2 ℝ} {angle : ℝ} (h : u.HasAngle angle) (hu : 0 < u.length)
    (v : Vec2 ℝ) :
    v.HasAngle (angle + atan2 (u.x * v.y - u.y * v.x) (u.x * v.x + u.y * v.y)) := by
  rw [hasAngle_iff] at h ⊢
  -- the turn is the argument of the one vector times the conjugate of the other
  have hproduct : (⟨u.x * v.x + u.y * v.y, u.x * v.y - u.y * v.x⟩ : ℂ) =
      (starRingEnd ℂ) u.toComplex * v.toComplex := by
    apply Complex.ext
    · simp [toComplex]
    · simp [toComplex]
      ring
  have hturn : atan2 (u.x * v.y - u.y * v.x) (u.x * v.x + u.y * v.y) =
      ((starRingEnd ℂ) u.toComplex * v.toComplex).arg := by
    rw [← hproduct]
    rfl
  have hpolar := Complex.norm_mul_exp_arg_mul_I ((starRingEnd ℂ) u.toComplex * v.toComplex)
  rw [norm_mul, RCLike.norm_conj, norm_toComplex, norm_toComplex] at hpolar
  have hnorm : u.toComplex * (starRingEnd ℂ) u.toComplex = (u.length : ℂ) ^ 2 := by
    rw [Complex.mul_conj', norm_toComplex]
  have hne : (u.length : ℂ) ^ 2 ≠ 0 := pow_ne_zero 2 (Complex.ofReal_ne_zero.2 hu.ne')
  apply mul_left_cancel₀ hne
  rw [hturn]
  generalize ((starRingEnd ℂ) u.toComplex * v.toComplex).arg = turn at hpolar ⊢
  calc (u.length : ℂ) ^ 2 * (v.length * Complex.exp ((angle + turn : ℝ) * Complex.I))
      = (u.length * Complex.exp (angle * Complex.I)) *
          ((u.length * v.length : ℝ) * Complex.exp (turn * Complex.I)) := by
        push_cast
        rw [add_mul, Complex.exp_add]
        ring
    _ = u.toComplex * ((starRingEnd ℂ) u.toComplex * v.toComplex) := by rw [h, hpolar]
    _ = (u.length : ℂ) ^ 2 * v.toComplex := by rw [← mul_assoc, hnorm]

/-- A direction stretched by a factor is as long as the factor. -/
theorem length_scale_ofAngle (angle factor : ℝ) :
    ((ofAngle angle).scale factor).length = |factor| := by
  have hsq : ((ofAngle angle).scale factor).length ^ 2 = factor ^ 2 := by
    have hone := Real.cos_sq_add_sin_sq angle
    rw [length_sq]
    simp only [ofAngle, scale_x, scale_y]
    linear_combination factor ^ 2 * hone
  rw [← Real.sqrt_sq_eq_abs, ← hsq, Real.sqrt_sq (length_nonneg _)]

/-- Two vectors in one direction differ by the difference of their lengths. -/
theorem HasAngle.length_sub {v : Vec2 ℝ} {angle : ℝ} (h : v.HasAngle angle) (factor : ℝ) :
    ((ofAngle angle).scale factor - v).length = |v.length - factor| := by
  have hsub : (ofAngle angle).scale factor - v = (ofAngle angle).scale (factor - v.length) := by
    conv_lhs => rw [← h]
    apply eq_of_coordinates
    · simp only [sub_x, scale_x, mul_sub]
    · simp only [sub_y, scale_y, mul_sub]
  rw [hsub, length_scale_ofAngle, abs_sub_comm]

end Vec2

/-- Two points of one height are as far apart as their projections. -/
theorem Plane.distance_compose (plane : Plane) (v : Vec2 ℝ) (p : Vec3 ℝ) :
    (plane.compose v (plane.height p)).distance p = (v - plane.project p).length := by
  have hdistance : ∀ q : Vec3 ℝ, q.distance p =
      √((q.x - p.x) * (q.x - p.x) + (q.y - p.y) * (q.y - p.y) + (q.z - p.z) * (q.z - p.z)) :=
    fun _ => rfl
  have hlength : (v - plane.project p).length =
      √((v.x - (plane.project p).x) * (v.x - (plane.project p).x) +
        (v.y - (plane.project p).y) * (v.y - (plane.project p).y)) := rfl
  rw [hdistance, hlength]
  -- the coordinate along the normal does not differ
  cases plane <;>
    dsimp only [compose, project, height, firstAxis, secondAxis, normalAxis, Vec3.get] <;>
    congr 1 <;> ring

/-! ## Ends of an arc -/

namespace Move

/-- How far the target of an arc lies off the circle that is drawn; nothing for a line. -/
noncomputable def offCircle (m : Move ℝ) : ℝ :=
  match m.shape with
  | .line => 0
  | .arc arc => |(arc.plane.project m.target - arc.center).length - arc.radius|

/-- A thousandth of the radius of an arc; nothing for a line. -/
noncomputable def tolerance (m : Move ℝ) : ℝ :=
  match m.shape with
  | .line => 0
  | .arc arc => arc.radius / 1000

/-- A move is drawn from its source to its target, which it misses by as much as that lies off the
circle. -/
structure MeetsEnds (m : Move ℝ) : Prop where
  start : (m.pointAt 0).distance m.source ≤ m.tolerance
  stop : (m.pointAt 1).distance m.target = m.offCircle

variable {m : Move ℝ} {arc : Arc ℝ}

theorem pointAt_arc (hshape : m.shape = .arc arc) (ratio : ℝ) :
    m.pointAt ratio = arc.plane.compose
      (arc.center + (Vec2.ofAngle (arc.fromAngle + arc.sweep * ratio)).scale arc.radius)
      (arc.plane.height m.source + m.rise arc.plane * ratio) := by
  rw [pointAt, hshape]
  rfl

/-- A point in the direction of a ratio of the way, and at its height, is as far from the point at
that ratio as it lies off the circle. -/
theorem distance_pointAt (hshape : m.shape = .arc arc) (ratio : ℝ) {p : Vec3 ℝ}
    (hheight : arc.plane.height m.source + m.rise arc.plane * ratio = arc.plane.height p)
    (hangle : (arc.plane.project p - arc.center).HasAngle (arc.fromAngle + arc.sweep * ratio)) :
    (m.pointAt ratio).distance p = |(arc.plane.project p - arc.center).length - arc.radius| := by
  have hsub : arc.center + (Vec2.ofAngle (arc.fromAngle + arc.sweep * ratio)).scale arc.radius -
      arc.plane.project p =
      (Vec2.ofAngle (arc.fromAngle + arc.sweep * ratio)).scale arc.radius -
        (arc.plane.project p - arc.center) := by
    apply Vec2.eq_of_coordinates <;> simp only [Vec2.add_x, Vec2.add_y, Vec2.sub_x, Vec2.sub_y] <;>
      ring
  rw [pointAt_arc hshape, hheight, Plane.distance_compose, hsub, hangle.length_sub]

/-- A line is drawn from its source to its target. -/
theorem meetsEnds_line (hshape : m.shape = .line) : m.MeetsEnds := by
  have hpoint : ∀ ratio, m.pointAt ratio = m.source + (m.target - m.source).scale ratio := by
    intro ratio
    rw [pointAt, hshape]
  have hdistance : ∀ ratio p, (m.pointAt ratio).distance p =
      √((m.source.x + (m.target.x - m.source.x) * ratio - p.x) *
          (m.source.x + (m.target.x - m.source.x) * ratio - p.x) +
        (m.source.y + (m.target.y - m.source.y) * ratio - p.y) *
          (m.source.y + (m.target.y - m.source.y) * ratio - p.y) +
        (m.source.z + (m.target.z - m.source.z) * ratio - p.z) *
          (m.source.z + (m.target.z - m.source.z) * ratio - p.z)) := by
    intro ratio p
    rw [hpoint]
    rfl
  constructor
  case start =>
    rw [hdistance, tolerance, hshape]
    simp
  case stop =>
    rw [hdistance, offCircle, hshape]
    simp

end Move

namespace Machine

/-- Whichever way an arc turns, it ends in the direction of its target. -/
theorem hasAngle_sweep {toCenter : Vec2 ℝ} (hlength : 0 < toCenter.length) {angle : ℝ}
    (h : (⟨-toCenter.x, -toCenter.y⟩ : Vec2 ℝ).HasAngle angle) (toTarget : Vec2 ℝ)
    (clockwise : Bool) : toTarget.HasAngle (angle + sweep toCenter toTarget clockwise) := by
  have hturn := h.add (toCenter.length_neg ▸ hlength) toTarget
  have hcross : -toCenter.x * toTarget.y - -toCenter.y * toTarget.x =
      -toCenter.x * toTarget.y + toCenter.y * toTarget.x := by ring
  have hdot : -toCenter.x * toTarget.x + -toCenter.y * toTarget.y =
      -toCenter.x * toTarget.x - toCenter.y * toTarget.y := by ring
  rw [hcross, hdot] at hturn
  -- a turn the other way round is a full turn off
  unfold sweep
  dsimp only
  unfold Vec2.HasAngle at hturn ⊢
  split_ifs
  · rwa [← add_sub_assoc, Vec2.ofAngle_sub_tau]
  · rwa [← add_assoc, Vec2.ofAngle_add_tau]
  · exact hturn

end Machine

/-- A circle through the start point, up to a thousandth of its radius. -/
structure Circle.Fits (circle : Circle ℝ) : Prop where
  length_pos : 0 < circle.toCenter.length
  close : |circle.toCenter.length - circle.radius| ≤ circle.radius / 1000

namespace Machine

variable {m : Machine ℝ} {circle : Circle ℝ} {move : Move ℝ}

/-- The way from the centre of an arc to a point in its plane. -/
theorem project_sub_center (m : Machine ℝ) (circle : Circle ℝ) (target p : Vec3 ℝ)
    (clockwise : Bool) : m.plane.project p - (m.arcOf circle target clockwise).center =
      m.plane.project p - m.plane.project m.position - circle.toCenter := by
  apply Vec2.eq_of_coordinates <;> exact (sub_sub _ _ _).symm

/-- An arc on a circle through its source is drawn from there to its target. -/
theorem meetsEnds_arcOf (hcircle : circle.Fits) {target : Vec3 ℝ} {clockwise : Bool}
    (hshape : move.shape = .arc (m.arcOf circle target clockwise))
    (hsource : move.source = m.position) (htarget : move.target = target) : move.MeetsEnds := by
  subst htarget
  -- the ways from the centre to both ends
  have hback : m.plane.project move.source - (m.arcOf circle move.target clockwise).center =
      ⟨-circle.toCenter.x, -circle.toCenter.y⟩ := by
    rw [hsource]
    apply Vec2.eq_of_coordinates <;> exact sub_add_cancel_left _ _
  have hfrom : (⟨-circle.toCenter.x, -circle.toCenter.y⟩ : Vec2 ℝ).HasAngle
      (m.arcOf circle move.target clockwise).fromAngle := Vec2.hasAngle_atan2 _
  constructor
  case start =>
    have hheight : m.plane.height move.source + move.rise m.plane * 0 =
        m.plane.height move.source := by rw [mul_zero, add_zero]
    have hangle : (m.plane.project move.source -
        (m.arcOf circle move.target clockwise).center).HasAngle
        ((m.arcOf circle move.target clockwise).fromAngle +
          (m.arcOf circle move.target clockwise).sweep * 0) := by
      rw [mul_zero, add_zero, hback]
      exact hfrom
    rw [Move.distance_pointAt hshape 0 hheight hangle, Move.tolerance, hshape]
    show |(m.plane.project move.source - _).length - circle.radius| ≤ circle.radius / 1000
    rw [hback, Vec2.length_neg]
    exact hcircle.close
  case stop =>
    have hheight : m.plane.height move.source + move.rise m.plane * 1 =
        m.plane.height move.target := by rw [mul_one, Move.rise, add_sub_cancel]
    have hangle : (m.plane.project move.target -
        (m.arcOf circle move.target clockwise).center).HasAngle
        ((m.arcOf circle move.target clockwise).fromAngle +
          (m.arcOf circle move.target clockwise).sweep * 1) := by
      rw [mul_one, project_sub_center]
      exact hasAngle_sweep hcircle.length_pos hfrom _ clockwise
    rw [Move.distance_pointAt hshape 1 hheight hangle, Move.offCircle, hshape]

/-! ## Circles -/

/-- How far the centre of a programmed radius lies to the left of its chord, in halves of the
chord. -/
noncomputable def bulge (chord : Vec2 ℝ) (clockwise : Bool) (radius : ℝ) : ℝ :=
  (if clockwise = decide (radius < 0) then 1 else -1) *
    (√(4 * radius ^ 2 - chord.length ^ 2) / chord.length)

/-- The point at a height above the middle of a chord, in halves of the chord. -/
noncomputable def aboveMiddle (chord : Vec2 ℝ) (height : ℝ) : Vec2 ℝ :=
  ⟨(chord.x - chord.y * height) / 2, (chord.y + chord.x * height) / 2⟩

/-- The circle of a programmed radius: rejected where the ends of the chord coincide or where the
radius is too short for it, and else around the point that the direction and the sign choose. -/
theorem circleOfRadius_eq (chord : Vec2 ℝ) (clockwise : Bool) (radius : ℝ) :
    circleOfRadius chord clockwise radius =
      if chord.length ^ 2 ≤ 1e-12 then .error .coincidentEnds
      else if 4 * radius ^ 2 - chord.length ^ 2 <
          -1e-6 * max (4 * radius ^ 2) (chord.length ^ 2) then .error .shortRadius
      else .ok ⟨aboveMiddle chord (bulge chord clockwise radius), |radius|⟩ := by
  have hzero : (0.0 : ℝ) = 0 := by norm_num
  have hhalf : ∀ x : ℝ, 0.5 * x = x / 2 := fun x => by norm_num; ring
  have hfour : 4.0 * radius * radius = 4 * radius ^ 2 := by norm_num [sq, mul_assoc]
  have hchord : chord.lengthSq = chord.length ^ 2 := by
    rw [Vec2.length_sq, Vec2.lengthSq, sq, sq]
  have hshort : (minRadius * minRadius : ℝ) = 1e-12 := by norm_num [minRadius]
  have hslack : (-radiusSlack : ℝ) = -1e-6 := by norm_num [radiusSlack]
  -- what is missing up to the slack counts as nothing, and has no root anyway
  have hroot : ∀ left : ℝ, sqrt (if left < 0 then 0 else left) = √left := by
    intro left
    show √_ = _
    split_ifs with hleft
    · rw [Real.sqrt_zero, Real.sqrt_eq_zero_of_nonpos hleft.le]
    · rfl
  have hside : sqrt (chord.length ^ 2) = chord.length := Real.sqrt_sq chord.length_nonneg
  unfold circleOfRadius
  simp only [hzero, hfour, hchord, hshort, hslack, greatest_eq_max, hhalf]
  rw [hroot, hside]
  by_cases hsame : chord.length ^ 2 ≤ 1e-12
  · rw [if_pos hsame, if_pos hsame]
  rw [if_neg hsame, if_neg hsame]
  by_cases hreach : 4 * radius ^ 2 - chord.length ^ 2 <
      -1e-6 * max (4 * radius ^ 2) (chord.length ^ 2)
  · have hnegative : 4 * radius ^ 2 - chord.length ^ 2 < 0 := by
      have hmax : 0 ≤ max (4 * radius ^ 2) (chord.length ^ 2) := le_max_of_le_right (sq_nonneg _)
      linarith
    rw [if_pos ⟨hnegative, hreach⟩, if_pos hreach]
  rw [if_neg fun h => hreach h.2, if_neg hreach]
  unfold bulge aboveMiddle
  rcases lt_or_ge radius 0 with hradius | hradius
  · rw [if_pos hradius, abs_of_neg hradius, decide_eq_true hradius]
    cases clockwise <;> simp [neg_div]
  · rw [if_neg hradius.not_gt, abs_of_nonneg hradius, decide_eq_false hradius.not_gt]
    cases clockwise <;> simp [neg_div]

/-- Both ends of the chord are as far away from a point above its middle. -/
theorem length_sq_aboveMiddle (chord : Vec2 ℝ) (height : ℝ) :
    (aboveMiddle chord height).length ^ 2 = chord.length ^ 2 * (1 + height ^ 2) / 4 ∧
      (chord - aboveMiddle chord height).length ^ 2 = chord.length ^ 2 * (1 + height ^ 2) / 4 := by
  simp only [Vec2.length_sq, Vec2.sub_x, Vec2.sub_y, aboveMiddle]
  constructor <;> ring

/-- The square of a bulge is what the diameter has over the chord, if anything. -/
theorem length_sq_mul_bulge_sq {chord : Vec2 ℝ} (hchord : 0 < chord.length) (clockwise : Bool)
    (radius : ℝ) : chord.length ^ 2 * bulge chord clockwise radius ^ 2 =
      max (4 * radius ^ 2 - chord.length ^ 2) 0 := by
  have hsign : (if clockwise = decide (radius < 0) then 1 else -1 : ℝ) ^ 2 = 1 := by
    split_ifs <;> norm_num
  unfold bulge
  rw [mul_pow, hsign, one_mul, div_pow, Real.sq_sqrt',
    mul_div_cancel₀ _ (pow_ne_zero 2 hchord.ne')]

/-- Both ends are as far from the centre as the radius is long, or as half of a longer chord. -/
theorem length_sq_aboveMiddle_bulge {chord : Vec2 ℝ} (hchord : 0 < chord.length) (clockwise : Bool)
    (radius : ℝ) :
    4 * (aboveMiddle chord (bulge chord clockwise radius)).length ^ 2 =
        max (4 * radius ^ 2) (chord.length ^ 2) ∧
      4 * (chord - aboveMiddle chord (bulge chord clockwise radius)).length ^ 2 =
        max (4 * radius ^ 2) (chord.length ^ 2) := by
  obtain ⟨hnear, hfar⟩ := length_sq_aboveMiddle chord (bulge chord clockwise radius)
  have hsum : 4 * (chord.length ^ 2 * (1 + bulge chord clockwise radius ^ 2) / 4) =
      max (4 * radius ^ 2) (chord.length ^ 2) := by
    rw [mul_div_cancel₀ _ four_ne_zero, mul_add, mul_one,
      length_sq_mul_bulge_sq hchord clockwise radius, add_comm, ← max_add_add_right,
      sub_add_cancel, zero_add]
  rw [hnear, hfar]
  exact ⟨hsum, hsum⟩

/-- A vector is about as long as a radius if their squares are about the same. -/
theorem close_of_sq {length radius : ℝ} (hlength : 0 ≤ length) (hradius : 0 ≤ radius)
    (hle : radius ^ 2 ≤ length ^ 2) (hslack : length ^ 2 - radius ^ 2 ≤ 1e-6 * length ^ 2) :
    |length - radius| ≤ radius / 1000 := by
  have hsmall : (1e-6 : ℝ) = 1 / 1000000 := by norm_num
  have hle' : radius ≤ length := (pow_le_pow_iff_left₀ hradius hlength two_ne_zero).1 hle
  have hge : length ≤ 1001 / 1000 * radius := by
    apply (pow_le_pow_iff_left₀ hlength (by positivity) two_ne_zero).1
    rw [hsmall] at hslack
    nlinarith
  rw [abs_of_nonneg (sub_nonneg.2 hle')]
  linarith

/-- An end that is as far from the centre is off the circle by a thousandth of the radius at most,
unless the radius is rejected as too short. -/
theorem close_of_length_sq {chord v : Vec2 ℝ} {radius : ℝ} (hchord : 0 < chord.length)
    (hradius : 0 ≤ radius) (hreach : ¬ 4 * radius ^ 2 - chord.length ^ 2 <
      -1e-6 * max (4 * radius ^ 2) (chord.length ^ 2))
    (hv : 4 * v.length ^ 2 = max (4 * radius ^ 2) (chord.length ^ 2)) :
    0 < v.length ∧ |v.length - radius| ≤ radius / 1000 := by
  have hsq := pow_pos hchord 2
  have hle := le_max_left (4 * radius ^ 2) (chord.length ^ 2)
  have hlong := le_max_right (4 * radius ^ 2) (chord.length ^ 2)
  rw [← hv] at hreach hle hlong
  have hpos : v.length ≠ 0 := by
    intro hzero
    rw [hzero] at hlong
    linarith
  refine ⟨lt_of_le_of_ne v.length_nonneg hpos.symm,
    close_of_sq v.length_nonneg hradius (by linarith) ?_⟩
  -- the vector is longer than the radius only where the chord is
  rcases max_choice (4 * radius ^ 2) (chord.length ^ 2) with hcase | hcase
  · rw [hcase] at hv
    linarith [sq_nonneg v.length]
  · rw [hcase] at hv
    linarith

/-- The circle of a programmed radius runs through both ends of its chord, up to a thousandth of the
radius. -/
theorem fits_circleOfRadius {chord : Vec2 ℝ} {radius : ℝ} {clockwise : Bool}
    (h : circleOfRadius chord clockwise radius = .ok circle) :
    circle.Fits ∧ |(chord - circle.toCenter).length - circle.radius| ≤ circle.radius / 1000 := by
  rw [circleOfRadius_eq] at h
  split_ifs at h with hsame hreach
  cases h
  have hchord : 0 < chord.length := by
    refine lt_of_le_of_ne chord.length_nonneg fun hzero => hsame ?_
    rw [← hzero, zero_pow two_ne_zero]
    norm_num
  obtain ⟨hnear, hfar⟩ := length_sq_aboveMiddle_bulge hchord clockwise radius
  rw [← sq_abs radius] at hreach hnear hfar
  obtain ⟨hlength, hclose⟩ := close_of_length_sq hchord (abs_nonneg radius) hreach hnear
  exact ⟨⟨hlength, hclose⟩, (close_of_length_sq hchord (abs_nonneg radius) hreach hfar).2⟩

/-- The circle of a block runs through the start point, and that of a programmed radius through the
target as well. -/
theorem fits_circle {b : Block} {target : Vec3 ℝ} {clockwise : Bool}
    (h : m.circle b target clockwise = .ok circle) :
    circle.Fits ∧ ((b.value? 'R' : Option ℝ).isSome →
      |(m.plane.project target - m.plane.project m.position - circle.toCenter).length -
        circle.radius| ≤ circle.radius / 1000) := by
  unfold Machine.circle at h
  cases hword : (b.value? 'R' : Option ℝ) with
  | some radius =>
    rw [hword] at h
    dsimp only at h
    rcases hcircle : circleOfRadius (m.plane.project target - m.plane.project m.position) clockwise
        radius with fault | drawn
    · rw [hcircle] at h
      cases h
    · rw [hcircle] at h
      cases h
      obtain ⟨hfits, htarget⟩ := fits_circleOfRadius hcircle
      exact ⟨hfits, fun _ => htarget⟩
  | none =>
    rw [hword] at h
    dsimp only at h
    split_ifs at h with hmissing hshort
    cases h
    -- the radius is the distance of the centre, whether or not the target is as far
    have hsmall : (0 : ℝ) < minRadius := by norm_num [minRadius]
    have hpos := hsmall.trans (not_le.1 hshort)
    refine ⟨⟨hpos, ?_⟩, nofun⟩
    rw [sub_self, abs_zero]
    positivity

/-- A block draws its move from end to end, and brings the circle of a programmed radius to the
target. -/
theorem meetsEnds_execute {s : Settings ℝ} {b : Block} (h : (m.execute s b).move? = some move) :
    move.MeetsEnds ∧ ((b.value? 'R' : Option ℝ).isSome → move.offCircle ≤ move.tolerance) := by
  rcases straight_or_arc (move_execute.1 h) with ⟨pace, hline⟩ | ⟨clockwise, drawn, hc, rfl⟩
  · unfold straightMove at hline
    split_ifs at hline
    cases hline
    exact ⟨Move.meetsEnds_line rfl, fun _ => le_refl (0 : ℝ)⟩
  · obtain ⟨hfits, htarget⟩ := fits_circle hc
    refine ⟨meetsEnds_arcOf hfits rfl rfl rfl, fun hradius => ?_⟩
    have hoff := htarget hradius
    rw [← project_sub_center _ _ _ _ clockwise] at hoff
    exact hoff

end Machine

end Toolpath
