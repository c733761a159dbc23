import Toolpath.Proofs.OppositeTheorems
import Toolpath.Proofs.DropTheorems

/-!
# The turn of an arc

In single precision, an arc turns the way its code asks for. The direction angle is a parameter
here, since all that is asked of it is that it stays within half a turn and is a zero straight ahead
(`Single.IsDirectionAngle`).

The angle from the start to the target is brought to the side of the direction by a full turn at
most (`Single.turns_turnTo`). An angle of zero becomes a full turn (`Single.turnTo_of_isZero`), so
an arc that ends at its start is a full circle.
-/

namespace Toolpath

open Scalar (IsNumber)

/-! ## Arcs and their blocks -/

namespace Machine

variable {α : Type} [Scalar α] {m : Machine α} {b : Block} {target : Vec3 α} {clockwise : Bool}
  {circle : Circle α}

/-- A straight move is a line. -/
theorem shape_of_straightMove {s : MachineSettings α} {line : ℕ} {pace : Pace} {move : Move α}
    (h : m.straightMove s line pace target = some move) : move.shape = .line := by
  unfold straightMove at h
  split_ifs at h
  cases h
  rfl

/-- An arc move has the circle of its block. -/
theorem arc_of_arcMove {move : Move α} {arc : Arc α}
    (h : (m.arcMove b target clockwise).map some = .ok (some move)) (harc : move.shape = .arc arc) :
    ∃ circle, m.circle b move.target clockwise = .ok circle ∧
      arc = m.arcOf circle move.target clockwise ∧ move.source = m.position := by
  unfold arcMove at h
  rcases hcircle : m.circle b target clockwise with problem | circle
  · rw [hcircle] at h
    cases h
  · rw [hcircle] at h
    cases h
    cases harc
    exact ⟨circle, hcircle, rfl, rfl⟩

/-- An arc comes from the mode of its direction and the circle of its block. -/
theorem arc_of_execute {s : Settings α} {move : Move α} {arc : Arc α}
    (h : (m.execute s b).move? = some move) (harc : move.shape = .arc arc) :
    ∃ clockwise circle, (m.execute s b).machine.motion = .ofArc clockwise ∧
      (m.prepared s b).circle b move.target clockwise = .ok circle ∧
        arc = (m.prepared s b).arcOf circle move.target clockwise ∧
          move.source = (m.prepared s b).position := by
  have hmotion := move_execute.1 h
  have hmode : (m.execute s b).machine.motion = (m.prepared s b).motion := by
    rw [execute_of_some hmotion]
  have hcurved : move.shape ≠ .line := by
    intro hline
    rw [harc] at hline
    cases hline
  rw [hmode]
  unfold motionOf at hmotion
  dsimp only at hmotion
  split_ifs at hmotion
  · cases hmotion
  -- one case per mode; only the two of arcs draw one
  split at hmotion
  · exact absurd (shape_of_straightMove (Except.ok.inj hmotion)) hcurved
  · exact absurd (shape_of_straightMove (Except.ok.inj hmotion)) hcurved
  · obtain ⟨circle, hcircle⟩ := arc_of_arcMove hmotion harc
    exact ⟨true, circle, ‹_›, hcircle⟩
  · obtain ⟨circle, hcircle⟩ := arc_of_arcMove hmotion harc
    exact ⟨false, circle, ‹_›, hcircle⟩
  · cases hmotion

end Machine

/-- The way to the centre that the offsets of a block give; a missing one is zero. -/
def Block.toCenter {α : Type} [Scalar α] (b : Block) (plane : Plane) : Vec2 α :=
  ⟨(b.value? plane.firstAxis.centerLetter).getD 0.0,
    (b.value? plane.secondAxis.centerLetter).getD 0.0⟩

namespace Machine

variable {α : Type} [Scalar α] {m : Machine α} {b : Block} {target : Vec3 α} {clockwise : Bool}
  {circle : Circle α}

/-- Without a radius the circle is that of the offsets, and not a point. -/
theorem circle_of_offsets (hradius : (b.value? 'R' : Option α) = none)
    (h : m.circle b target clockwise = .ok circle) :
    circle = ⟨b.toCenter m.plane, (b.toCenter m.plane : Vec2 α).length⟩ ∧
      ¬ (b.toCenter m.plane : Vec2 α).length ≤ minRadius := by
  unfold Machine.circle at h
  rw [hradius] at h
  dsimp only at h
  split_ifs at h with hnone hsmall
  cases h
  exact ⟨rfl, hsmall⟩

/-- With a radius the circle is the one of that radius over the chord. -/
theorem circle_of_radiusWord {radius : α} (hradius : b.value? 'R' = some radius)
    (h : m.circle b target clockwise = .ok circle) :
    circleOfRadius (m.plane.project target - m.plane.project m.position) clockwise radius =
      .ok circle := by
  unfold Machine.circle at h
  rw [hradius] at h
  dsimp only at h
  split at h
  · cases h
    assumption
  · cases h

end Machine

/-! ## Direction angles -/

namespace Single

/-- The number nearest to the half turn. -/
def halfTurn : Float32 := 3.1415927

/-- What is known of the direction angle: a number is within half a turn, and it is a zero straight
ahead. -/
structure IsDirectionAngle (atan2 : Float32 → Float32 → Float32) : Prop where
  mem : ∀ y x, IsNumber (atan2 y x) → -halfTurn ≤ atan2 y x ∧ atan2 y x ≤ halfTurn
  ahead : ∀ y x, IsZero y → 0.0 < x → IsZero (atan2 y x)

/-- The turn to an angle in a direction. -/
def turnTo (angle : Float32) (clockwise : Bool) : Float32 :=
  if clockwise ∧ (0.0 : Float32) ≤ angle then angle - Scalar.tau
  else if ¬ clockwise ∧ angle ≤ (0.0 : Float32) then angle + Scalar.tau
  else angle

theorem parts_tau : parts (Scalar.tau : Float32) =
    .finite .positive 13176795 (-21) (by decide) := by rfl

theorem parts_halfTurn : parts halfTurn = .finite .positive 13176795 (-22) (by decide) := by rfl

theorem value_tau : value (parts (Scalar.tau : Float32)) = 2 * value (parts halfTurn) := by
  rw [parts_tau, parts_halfTurn]
  show ((13176795 : ℕ) : ℝ) * 2 ^ (-21 : ℤ) = 2 * ((13176795 : ℕ) * 2 ^ (-22 : ℤ))
  norm_num

theorem isFinite_tau : (Scalar.tau : Float32).isFinite = true := by rfl

theorem isFinite_halfTurn : halfTurn.isFinite = true := by rfl

/-- A clockwise turn to an angle on the other side is a full turn at most. -/
theorem sub_tau_mem {angle : Float32} (hlo : 0.0 ≤ angle) (hhi : angle ≤ halfTurn) :
    -Scalar.tau ≤ angle - Scalar.tau ∧ angle - Scalar.tau < 0.0 := by
  have hfinite : angle.isFinite = true :=
    Scalar.Rounding.isFinite_of_le _ _ hlo hhi isFinite_halfTurn
  have hzero : (0.0 : Float32).isFinite = true := rfl
  have hpos : 0 ≤ value (parts angle) := (le_iff_value hzero hfinite).1 hlo
  have hless := (le_iff_value hfinite isFinite_halfTurn).1 hhi
  have hrounding := isRounding_sub hfinite isFinite_tau
  have hlow : -Scalar.tau ≤ angle - Scalar.tau :=
    hrounding.ge ((isFinite_neg _).trans isFinite_tau) (by rw [parts_neg, value_neg]; linarith)
  have hhigh : angle - Scalar.tau ≤ -halfTurn :=
    hrounding.le ((isFinite_neg _).trans isFinite_halfTurn)
      (by rw [parts_neg, value_neg, value_tau]; linarith)
  exact ⟨hlow, Scalar.num_lt_of_le_of_lt hhigh (by decide +kernel)⟩

/-- A counter-clockwise turn to an angle on the other side is a full turn at most. -/
theorem add_tau_mem {angle : Float32} (hlo : -halfTurn ≤ angle) (hhi : angle ≤ 0.0) :
    0.0 < angle + Scalar.tau ∧ angle + Scalar.tau ≤ Scalar.tau := by
  have hzero : (0.0 : Float32).isFinite = true := rfl
  have hneg : (-angle).isFinite = true := by
    apply Scalar.Rounding.isFinite_of_le (-angle) halfTurn _ _ isFinite_halfTurn
    · have hmirror := (Single.neg_le_neg_iff 0.0 angle).2 hhi
      exact Scalar.num_le_trans (by decide +kernel) hmirror
    · have hmirror := (Single.neg_le_neg_iff angle (-halfTurn)).2 hlo
      exact Scalar.num_le_trans hmirror (by decide +kernel)
  have hfinite : angle.isFinite = true := (isFinite_neg angle).symm.trans hneg
  have hnonpos : value (parts angle) ≤ 0 := (le_iff_value hfinite hzero).1 hhi
  have hmore := (le_iff_value ((isFinite_neg _).trans isFinite_halfTurn) hfinite).1 hlo
  rw [parts_neg, value_neg] at hmore
  have hrounding := isRounding_add hfinite isFinite_tau
  have hlow : halfTurn ≤ angle + Scalar.tau :=
    hrounding.ge isFinite_halfTurn (by rw [value_tau]; linarith)
  have hhigh : angle + Scalar.tau ≤ Scalar.tau := hrounding.le isFinite_tau (by linarith)
  exact ⟨Scalar.num_lt_of_lt_of_le (by decide +kernel) hlow, hhigh⟩

end Single

/-- The turns of a mode of motion: clockwise ones are below zero and counter-clockwise ones above,
by a full turn at most. -/
def MotionMode.Turns : MotionMode → Float32 → Prop
  | .clockwise, turn => -Scalar.tau ≤ turn ∧ turn < 0.0
  | .counterClockwise, turn => 0.0 < turn ∧ turn ≤ Scalar.tau
  | _, _ => False

/-- The full turn of a mode of motion. -/
def MotionMode.fullTurn : MotionMode → Float32
  | .clockwise => -Scalar.tau
  | _ => Scalar.tau

namespace Single

variable {angle : Float32}

/-- Only an angle that is a number has a turn that is one. -/
theorem isNumber_of_turnTo {clockwise : Bool} (h : IsNumber (turnTo angle clockwise)) :
    IsNumber angle := by
  unfold turnTo at h
  split_ifs at h with hcw hccw
  · exact Scalar.number_right hcw.2
  · exact Scalar.number_left hccw.2
  · exact h

/-- The turn to an angle within half a turn is one of the direction. -/
theorem turns_turnTo (hlo : -halfTurn ≤ angle) (hhi : angle ≤ halfTurn) (clockwise : Bool) :
    (MotionMode.ofArc clockwise).Turns (turnTo angle clockwise) := by
  have hnumber : IsNumber angle := Scalar.number_left hhi
  have hzero : IsNumber (0.0 : Float32) := by decide +kernel
  unfold turnTo
  cases clockwise with
  | true =>
    by_cases hpos : (0.0 : Float32) ≤ angle
    · rw [if_pos ⟨rfl, hpos⟩]
      exact sub_tau_mem hpos hhi
    · rw [if_neg fun h => hpos h.2, if_neg fun h => h.1 rfl]
      exact ⟨Scalar.num_le_trans (by decide +kernel) hlo,
        Scalar.num_lt_of_not_le hzero hnumber hpos⟩
  | false =>
    by_cases hneg : angle ≤ (0.0 : Float32)
    · rw [if_neg fun h => Bool.false_ne_true h.1, if_pos ⟨Bool.false_ne_true, hneg⟩]
      exact add_tau_mem hlo hneg
    · rw [if_neg fun h => Bool.false_ne_true h.1, if_neg fun h => hneg h.2]
      exact ⟨Scalar.num_lt_of_not_le hnumber hzero hneg,
        Scalar.num_le_trans hhi (by decide +kernel)⟩

/-- The turn straight ahead is a full one. -/
theorem turnTo_of_isZero (h : IsZero angle) (clockwise : Bool) :
    turnTo angle clockwise = (MotionMode.ofArc clockwise).fullTurn := by
  obtain ⟨s, hs⟩ := isZero_iff.1 h
  unfold turnTo
  cases clockwise with
  | true =>
    rw [if_pos ⟨rfl, h.2⟩]
    show ofParts ((parts angle).sub .binary32 (parts Scalar.tau)) = -Scalar.tau
    rw [hs]
    cases s <;> decide +kernel
  | false =>
    rw [if_neg fun h => Bool.false_ne_true h.1, if_pos ⟨Bool.false_ne_true, h.1⟩]
    show ofParts ((parts angle).add .binary32 (parts Scalar.tau)) = Scalar.tau
    rw [hs]
    cases s <;> decide +kernel

end Single

/-! ## Radii -/

namespace Single

open Float.Model (UnpackedFloat)

variable {x y : Float32}

theorem isNumber_of_mul (h : IsNumber (x * y)) : IsNumber x ∧ IsNumber y := by
  obtain ⟨hx, hy⟩ := ne_of_mul (ne_of_ofParts (isNumber_iff.1 h))
  exact ⟨isNumber_iff.2 hx, isNumber_iff.2 hy⟩

theorem isNumber_of_neg (h : IsNumber (-x)) : IsNumber x := by
  rw [isNumber_iff, parts_neg, ne_eq, neg_eq_notANumber_iff] at h
  exact isNumber_iff.2 h

theorem isNumber_of_sqrt (h : IsNumber (Scalar.sqrt x)) : IsNumber x := by
  have hsqrt : (parts x).sqrt .binary32 ≠ .notANumber := ne_of_ofParts (isNumber_iff.1 h)
  rw [isNumber_iff]
  intro hnan
  rw [hnan] at hsqrt
  exact hsqrt rfl

/-- A number is above zero, below it, or a zero. -/
theorem number_cases (h : IsNumber x) : 0.0 < x ∨ x < 0.0 ∨ IsZero x := by
  have hzero : IsNumber (0.0 : Float32) := by decide +kernel
  by_cases hle : x ≤ 0.0
  · by_cases hge : 0.0 ≤ x
    · exact .inr (.inr ⟨hle, hge⟩)
    · exact .inr (.inl (Scalar.num_lt_of_not_le hzero h hge))
  · exact .inl (Scalar.num_lt_of_not_le h hzero hle)

theorem zero_lt_neg (h : x < 0.0) : 0.0 < -x := by
  have hmirror := (Single.neg_lt_neg_iff 0.0 x).2 h
  exact Scalar.num_lt_of_le_of_lt (by decide +kernel) hmirror

/-- Half of a number that is not tiny. -/
theorem exists_half {m : ℕ} {e : ℤ} (h : Binary.IsCanonical .binary32 m e) (hfull : 2 ^ 23 ≤ m)
    (hlow : -149 < e) (hhigh : e ≤ 104) :
    ∃ w : Float32, w.isFinite = true ∧ value (parts w) = -(m * 2 ^ e / 2) := by
  have hcanonical : Binary.IsCanonical .binary32 m (e - 1) :=
    ⟨h.pos, h.lt, show (-149 : ℤ) ≤ e - 1 by omega, .inl hfull⟩
  have hparts : parts (ofParts (.finite .negative m (e - 1) h.pos)) =
      .finite .negative m (e - 1) h.pos :=
    Binary.unpack_pack .negative hcanonical (show e - 1 ≤ 104 by omega)
  refine ⟨ofParts (.finite .negative m (e - 1) h.pos), ?_, ?_⟩
  · show (parts _).isFinite = true
    rw [hparts]
    rfl
  · rw [hparts]
    show -((m : ℝ) * 2 ^ (e - 1)) = -(m * 2 ^ e / 2)
    rw [zpow_sub_one₀ two_ne_zero]
    ring

theorem parts_minRadius_sq : parts ((Machine.minRadius : Float32) * Machine.minRadius) =
    .finite .positive 9223372 (-63) (by decide) := by rfl

theorem parts_radiusSlack : parts (-(Machine.radiusSlack : Float32)) =
    .finite .negative 8796093 (-43) (by decide) := by rfl

/-- A number above the least squared length has a full mantissa and no tiny exponent. -/
theorem exists_full {c : Float32} (hc : c.isFinite = true)
    (h : Machine.minRadius * Machine.minRadius < c) :
    ∃ m e, ∃ hm : Binary.IsCanonical .binary32 m e, 2 ^ 23 ≤ m ∧ -149 < e ∧ e ≤ 104 ∧
      parts c = .finite .positive m e hm.pos := by
  rw [lt_iff, parts_minRadius_sq] at h
  have hrank := h.2.2
  obtain ⟨s, hzero⟩ | ⟨s, m, e, hm, he, hparts⟩ := parts_of_isFinite hc
  · rw [hzero] at hrank
    dsimp only [rank] at hrank
    simp only [Prod.Lex.toLex_lt_toLex] at hrank
    omega
  rw [hparts] at hrank
  cases s <;> dsimp only [rank] at hrank <;> simp only [Prod.Lex.toLex_lt_toLex] at hrank
  · omega
  refine ⟨m, e, hm, hm.full.resolve_right fun hleast => ?_, by omega, he, hparts⟩
  have hmin : Float.Model.Format.binary32.minExponent = -149 := rfl
  omega

/-- The slack is a small part of a squared chord. -/
theorem neg_lt_slack_mul {c : Float32} (hc : c.isFinite = true)
    (h : Machine.minRadius * Machine.minRadius < c) : -c < -Machine.radiusSlack * c := by
  have hslack : (-(Machine.radiusSlack : Float32)).isFinite = true := rfl
  have hneg : (-c).isFinite = true := (isFinite_neg c).trans hc
  obtain ⟨m, e, hm, hfull, hlow, hhigh, hparts⟩ := exists_full hc h
  obtain ⟨w, hw, hhalf⟩ := exists_half hm hfull hlow hhigh
  have hvalue : value (parts c) = m * 2 ^ e := by
    rw [hparts]
    rfl
  have hpos : (0 : ℝ) < m * 2 ^ e := mul_pos (by exact_mod_cast hm.pos) (by positivity)
  have hrounding := isRounding_mul hslack hc
  -- the slack is less than a half, and half of the number can be stored
  have hbelow : value (parts w) ≤
      value (parts (-(Machine.radiusSlack : Float32))) * value (parts c) := by
    rw [hhalf, hvalue, parts_radiusSlack]
    show -(m * 2 ^ e / 2 : ℝ) ≤ -((8796093 : ℕ) * 2 ^ (-43 : ℤ)) * (m * 2 ^ e)
    norm_num
    linarith
  have hstrict : rank (parts (-c)) < rank (parts w) := by
    rw [← not_le, rank_le_iff_value hw hneg, hhalf, parts_neg, value_neg, hvalue]
    intro hle
    linarith
  have hlt : -c < w := by
    rw [lt_iff]
    exact ⟨ne_of_isFinite hneg, ne_of_isFinite hw, hstrict⟩
  exact Scalar.num_lt_of_lt_of_le hlt (hrounding.ge hw hbelow)

/-- Four times the square of a zero is one. -/
theorem isZero_four_mul_sq (h : IsZero x) : IsZero (4.0 * x * x) := by
  obtain ⟨s, hx⟩ := isZero_iff.1 h
  obtain ⟨t, hdouble⟩ := parts_mul_zero (a := 4.0) rfl hx
  have hfinite : (4.0 * x).isFinite = true := by
    show (parts (4.0 * x)).isFinite = true
    rw [hdouble]
    rfl
  exact isZero_iff.2 (parts_mul_zero hfinite hx)

/-- What is left of a zero is the negative of what is taken away. -/
theorem sub_lt_of_neg_lt {z c : Float32} (hz : IsZero z) (hc : c.isFinite = true) (h : -c < x) :
    z - c < x := by
  have hopposite := isOpposite_zero_sub hz hc
  rw [lt_iff] at h ⊢
  rw [hopposite.rank_eq, ← rank_neg, ← parts_neg]
  exact ⟨ne_of_isFinite hopposite.right, h.2⟩

end Single

namespace Machine

open Single (IsZero)

variable {chord : Vec2 Float32} {clockwise : Bool} {radius : Float32} {circle : Circle Float32}

/-- No circle of no radius goes through the ends of a chord, unless its square overflows. -/
theorem circleOfRadius_of_isZero (hzero : IsZero radius)
    (hfinite : chord.lengthSq.isFinite = true) :
    circleOfRadius chord clockwise radius ≠ .ok circle := by
  intro h
  have hdiameter := Single.isZero_four_mul_sq hzero
  unfold circleOfRadius at h
  dsimp only at h
  generalize chord.lengthSq = chordSq at hfinite h
  generalize 4.0 * radius * radius = diameterSq at hdiameter h
  by_cases hsmall : chordSq ≤ minRadius * minRadius
  · rw [if_pos hsmall] at h
    cases h
  -- the chord is longer than nothing, so it misses the diameter by all its length
  have hmin : IsNumber (minRadius * minRadius : Float32) := by decide +kernel
  have hnumber : IsNumber chordSq := Scalar.Rounding.isNumber_of_isFinite _ hfinite
  have hchord := Scalar.num_lt_of_not_le hnumber hmin hsmall
  have hpos : 0.0 < chordSq := Scalar.num_lt_of_le_of_lt (by decide +kernel) hchord
  have hless : diameterSq < chordSq := Scalar.num_lt_of_le_of_lt hdiameter.1 hpos
  have hgreatest : Scalar.greatest diameterSq chordSq = chordSq := if_pos hless
  have hshort : diameterSq - chordSq < 0.0 ∧
      diameterSq - chordSq < -radiusSlack * Scalar.greatest diameterSq chordSq := by
    rw [hgreatest]
    refine ⟨Single.sub_lt_of_neg_lt hdiameter hfinite ?_,
      Single.sub_lt_of_neg_lt hdiameter hfinite (Single.neg_lt_slack_mul hfinite hchord)⟩
    rw [← Single.neg_lt_neg_iff] at hpos
    exact Scalar.num_lt_of_lt_of_le hpos (by decide +kernel)
  rw [if_neg hsmall, if_pos hshort] at h
  cases h

/-- The radius of a circle is the programmed one without its sign. -/
theorem radius_of_circleOfRadius (h : circleOfRadius chord clockwise radius = .ok circle) :
    circle.radius = if radius < 0.0 then -radius else radius := by
  unfold circleOfRadius at h
  dsimp only at h
  split at h
  · cases h
  split at h
  · cases h
  cases h
  by_cases hneg : radius < 0.0
  · rw [if_pos hneg, if_pos hneg]
  · rw [if_neg hneg, if_neg hneg]

/-- The centre of a circle is at a number only if the programmed radius is one. -/
theorem isNumber_of_circleOfRadius (h : circleOfRadius chord clockwise radius = .ok circle)
    (hcenter : IsNumber circle.toCenter.x) : IsNumber radius := by
  by_cases hneg : radius < 0.0
  · exact Scalar.number_left (Scalar.num_le_of_lt hneg)
  unfold circleOfRadius at h
  dsimp only at h
  rw [if_neg hneg] at h
  split at h
  · cases h
  split at h
  · cases h
  cases h
  have hheight := (Single.isNumber_of_mul (Scalar.Absorbing.isNumber_of_sub _ _
    (Single.isNumber_of_mul hcenter).2).2).2
  have hquotient : IsNumber (-Scalar.sqrt (if 4.0 * radius * radius - chord.lengthSq < 0.0 then 0.0
      else 4.0 * radius * radius - chord.lengthSq) / Scalar.sqrt chord.lengthSq) := by
    dsimp only at hheight
    split at hheight
    · exact hheight
    · exact Single.isNumber_of_neg hheight
  have hleft := Single.isNumber_of_sqrt
    (Single.isNumber_of_neg (Scalar.Absorbing.isNumber_of_div _ _ hquotient))
  have hdifference : IsNumber (4.0 * radius * radius - chord.lengthSq) := by
    split at hleft
    · exact Scalar.number_left (Scalar.num_le_of_lt ‹_›)
    · exact hleft
  exact (Single.isNumber_of_mul (Scalar.Absorbing.isNumber_of_sub _ _ hdifference).1).2

/-- The radius of a circle with its centre at a number is above zero, unless no radius is asked for
over a chord whose square overflows. -/
theorem zero_lt_radius (h : circleOfRadius chord clockwise radius = .ok circle)
    (hcenter : IsNumber circle.toCenter.x)
    (hchord : IsZero radius → chord.lengthSq.isFinite = true) : 0.0 < circle.radius := by
  rw [radius_of_circleOfRadius h]
  obtain hpos | hneg | hzero := Single.number_cases (isNumber_of_circleOfRadius h hcenter)
  · rw [if_neg fun hneg => Scalar.num_not_le_of_lt hpos (Scalar.num_le_of_lt hneg)]
    exact hpos
  · rw [if_pos hneg]
    exact Single.zero_lt_neg hneg
  · exact absurd h (circleOfRadius_of_isZero hzero (hchord hzero))

/-- Offsets that are numbers and no point have a length above zero. -/
theorem zero_lt_length {toCenter : Vec2 Float32} (hx : IsNumber toCenter.x)
    (hy : IsNumber toCenter.y) (h : ¬ toCenter.length ≤ minRadius) : 0.0 < toCenter.length := by
  have hsquare : ∀ {x : Float32}, IsNumber x → 0.0 ≤ x * x := fun {x} hx =>
    (Scalar.Rounding.nonneg_mul_self x).zero_le (Scalar.Rounding.isNumber_mul_self x hx)
  have hsum : (0.0 : Float32) ≤ toCenter.lengthSq :=
    (Scalar.Rounding.nonneg_add _ _ (Scalar.nonneg_of_le (hsquare hx))
      (Scalar.nonneg_of_le (hsquare hy))).zero_le
        (Scalar.Rounding.isNumber_add _ _ (hsquare hx) (hsquare hy))
  have hlength : IsNumber toCenter.length := Scalar.Rounding.isNumber_sqrt _ hsum
  have hmin : IsNumber (minRadius : Float32) := by decide +kernel
  exact Scalar.num_lt_of_le_of_lt (by decide +kernel) (Scalar.num_lt_of_not_le hlength hmin h)

end Machine

/-! ## Arcs of blocks -/

namespace Single

/-- Single-precision arithmetic with a direction angle of its own. -/
@[reducible]
def withAtan2 (atan2 : Float32 → Float32 → Float32) : Scalar Float32 :=
  { (inferInstance : Scalar Float32) with atan2 := atan2 }

/-- The direction angle is a number for numbers only. -/
def KeepsNaN (atan2 : Float32 → Float32 → Float32) : Prop :=
  ∀ y x, IsNumber (atan2 y x) → IsNumber y ∧ IsNumber x

end Single

/-- A move that ends where it starts, as seen in a plane, at finite coordinates. -/
structure Move.Returns (m : Move Float32) (plane : Plane) : Prop where
  finite_x : (plane.project m.source).x.isFinite = true
  finite_y : (plane.project m.source).y.isFinite = true
  eq_x : (plane.project m.source).x ≤ (plane.project m.target).x ∧
    (plane.project m.target).x ≤ (plane.project m.source).x
  eq_y : (plane.project m.source).y ≤ (plane.project m.target).y ∧
    (plane.project m.target).y ≤ (plane.project m.source).y

/-- Seen from a centre, such a move ends on the way to it, the other way round. -/
theorem Move.Returns.isOpposite {m : Move Float32} {plane : Plane} (h : m.Returns plane)
    {toCenter : Vec2 Float32} (hx : toCenter.x.isFinite = true) (hy : toCenter.y.isFinite = true) :
    Single.IsOpposite toCenter.x
        (plane.project m.target - plane.project m.source - toCenter).x ∧
      Single.IsOpposite toCenter.y
        (plane.project m.target - plane.project m.source - toCenter).y :=
  ⟨Single.isOpposite_zero_sub (Single.isZero_sub h.finite_x h.eq_x.1 h.eq_x.2) hx,
    Single.isOpposite_zero_sub (Single.isZero_sub h.finite_y h.eq_y.1 h.eq_y.2) hy⟩

namespace Machine

open Single (IsZero IsDirectionAngle KeepsNaN)

/-- Execute a block with the given direction angle. -/
def executeBy (atan2 : Float32 → Float32 → Float32) (m : Machine Float32) (s : Settings Float32)
    (b : Block) : Outcome Float32 :=
  @execute Float32 (Single.withAtan2 atan2) m s b

/-- A program is executed with the direction angle of its arithmetic. -/
theorem executeBy_atan2 (m : Machine Float32) (s : Settings Float32) (b : Block) :
    m.executeBy Scalar.atan2 s b = m.execute s b := rfl

variable {atan2 : Float32 → Float32 → Float32} {m : Machine Float32} {s : Settings Float32}
  {b : Block} {move : Move Float32} {arc : Arc Float32}

/-- An arc has the turn to the angle between its start and its target around the centre. -/
theorem sweep_of_execute (h : (m.executeBy atan2 s b).move? = some move)
    (harc : move.shape = .arc arc) :
    ∃ (p : Machine Float32) (clockwise : Bool) (circle : Circle Float32) (toTarget : Vec2 Float32),
      (m.executeBy atan2 s b).machine.motion = .ofArc clockwise ∧
        p.circle b move.target clockwise = .ok circle ∧ move.source = p.position ∧
          arc.plane = p.plane ∧ arc.radius = circle.radius ∧
            toTarget = p.plane.project move.target - p.plane.project p.position - circle.toCenter ∧
              arc.sweep = Single.turnTo (atan2 (Single.cross circle.toCenter toTarget)
                (Single.dot circle.toCenter toTarget)) clockwise := by
  obtain ⟨clockwise, circle, hmode, hcircle, rfl, hsource⟩ :=
    @arc_of_execute Float32 (Single.withAtan2 atan2) _ _ _ _ _ h harc
  exact ⟨_, clockwise, circle, _, hmode, hcircle, hsource, rfl, rfl, rfl, rfl⟩

/-- Whatever the direction angle is, that of the arithmetic in a program among them
(`executeBy_atan2`), an arc turns the way its mode asks for, by a full turn at most. Its radius is
above zero, unless none is asked for over a chord whose square overflows. Given by finite offsets,
with a finite product, it is a full circle where it ends at its start. -/
theorem execute_turns (hangle : IsDirectionAngle atan2)
    (h : (m.executeBy atan2 s b).move? = some move) (harc : move.shape = .arc arc) :
    m.executeBy Scalar.atan2 s b = m.execute s b ∧
      (IsNumber arc.sweep → (m.executeBy atan2 s b).machine.motion.Turns arc.sweep) ∧
      (KeepsNaN atan2 → IsNumber arc.sweep →
        (∀ radius : Float32, b.value? 'R' = some radius → IsZero radius →
          (arc.plane.project move.target - arc.plane.project move.source).lengthSq.isFinite =
            true) →
        0.0 < arc.radius) ∧
      (b.value? 'R' = (none : Option Float32) → move.Returns arc.plane →
        ((b.toCenter arc.plane : Vec2 Float32).x * (b.toCenter arc.plane).y).isFinite = true →
        arc.sweep = (m.executeBy atan2 s b).machine.motion.fullTurn) := by
  obtain ⟨p, clockwise, circle, toTarget, hmode, hcircle, hsource, hplane, hradius, htarget,
    hsweep⟩ := sweep_of_execute h harc
  rw [hmode, hplane, hradius, hsweep, hsource]
  refine ⟨executeBy_atan2 m s b, fun hnumber => ?_, fun hnan hnumber hchord => ?_,
    fun hoffsets hreturns hfinite => ?_⟩
  · obtain ⟨hlo, hhi⟩ := hangle.mem _ _ (Single.isNumber_of_turnTo hnumber)
    exact Single.turns_turnTo hlo hhi clockwise
  -- if the angle is a number, both products of the cross product are
  · have hcross := (hnan _ _ (Single.isNumber_of_turnTo hnumber)).1
    obtain ⟨hfirst, hsecond⟩ := Single.isNumber_of_add hcross
    have hx := Single.isNumber_of_neg (Single.isNumber_of_mul hfirst).1
    have hy := (Single.isNumber_of_mul hsecond).1
    rcases hword : (b.value? 'R' : Option Float32) with _ | radius
    · obtain ⟨rfl, hlong⟩ := circle_of_offsets hword hcircle
      exact zero_lt_length hx hy hlong
    · exact zero_lt_radius (circle_of_radiusWord hword hcircle) hx (hchord radius hword)
  · obtain ⟨rfl, hlong⟩ := circle_of_offsets hoffsets hcircle
    obtain ⟨hfinite_x, hfinite_y⟩ : (b.toCenter p.plane : Vec2 Float32).x.isFinite = true ∧
      (b.toCenter p.plane : Vec2 Float32).y.isFinite = true :=
        Scalar.Absorbing.isFinite_of_mul (α := Float32) _ _ hfinite
    -- the target lies opposite the centre, so the cross product vanishes and the dot product does
    -- not
    obtain ⟨hx, hy⟩ := hreturns.isOpposite hfinite_x hfinite_y
    rw [hsource, ← htarget] at hx hy
    exact Single.turnTo_of_isZero (hangle.ahead _ _ (Single.isZero_cross hx hy hfinite)
      (Single.zero_lt_dot hx hy hlong)) clockwise

/-- The angle of a point on the first axis, with the sign of a zero; any other one is taken for a
half turn. -/
def axisAngle (y x : Float32) : Float32 :=
  if y ≤ y ∧ x ≤ x then
    if IsZero y ∧ 0.0 < x then y
    else if y < 0.0 ∨ 1.0 / y < 0.0 then -Single.halfTurn
    else Single.halfTurn
  else 0.0 / 0.0

theorem keepsNaN_axisAngle : KeepsNaN axisAngle := by
  intro y x h
  unfold axisAngle at h
  split at h
  · assumption
  · exact absurd h (by decide +kernel)

theorem isDirectionAngle_axisAngle : IsDirectionAngle axisAngle := by
  refine ⟨fun y x h => ?_, fun y x hzero hpos => ?_⟩
  · have hnumbers : y ≤ y ∧ x ≤ x := keepsNaN_axisAngle y x h
    unfold axisAngle
    rw [if_pos hnumbers]
    split_ifs with hahead
    · exact ⟨Scalar.num_le_trans (by decide +kernel) hahead.1.2,
        Scalar.num_le_trans hahead.1.1 (by decide +kernel)⟩
    · decide +kernel
    · decide +kernel
  · have hnumbers : y ≤ y ∧ x ≤ x :=
      ⟨Scalar.number_left hzero.1, Scalar.number_right (Scalar.num_le_of_lt hpos)⟩
    unfold axisAngle
    rw [if_pos hnumbers, if_pos ⟨hzero, hpos⟩]
    exact hzero

/-- A line that asks for a full circle. -/
def fullCircleBlock : Block := .ofPairs 1 [('G', 2.0), ('X', 0.0), ('I', 5.0)]

/-- The circle it asks for, drawn clockwise. -/
def fullCircle : Arc Float32 := ⟨.xy, ⟨5.0, 0.0⟩, -Single.halfTurn, -Scalar.tau, 5.0⟩

theorem execute_turns_fullCircle :
    ((initial .default).executeBy axisAngle .default fullCircleBlock).move? =
        some (.make (.arc fullCircle) Vec3.zero Vec3.zero 900.0 1 .normal) ∧
      MotionMode.clockwise.Turns fullCircle.sweep ∧ 0.0 < fullCircle.radius ∧
        fullCircle.sweep = -Scalar.tau := by
  have hmove : ((initial .default).executeBy axisAngle .default fullCircleBlock).move? =
      some (.make (.arc fullCircle) Vec3.zero Vec3.zero 900.0 1 .normal) := by decide +kernel
  have hmode : ((initial .default).executeBy axisAngle .default fullCircleBlock).machine.motion =
      .clockwise := by decide +kernel
  have hword : fullCircleBlock.value? 'R' = (none : Option Float32) := by decide +kernel
  have hnumber : IsNumber fullCircle.sweep := by decide +kernel
  obtain ⟨-, hturns, hradius, hfull⟩ := execute_turns isDirectionAngle_axisAngle hmove
    (show _ = Shape.arc fullCircle from rfl)
  rw [hmode] at hturns hfull
  refine ⟨hmove, hturns hnumber, hradius keepsNaN_axisAngle hnumber fun radius hradius => ?_, ?_⟩
  · rw [hword] at hradius
    cases hradius
  · apply hfull hword _ (by decide +kernel)
    exact ⟨by decide +kernel, by decide +kernel, by decide +kernel, by decide +kernel⟩

/-- A line that asks for an arc of no radius over a chord whose square overflows. -/
def hugeChordBlock : Block := .ofPairs 1 [('G', 2.0), ('X', 1e20), ('R', 0.0)]

/-- A line that asks for a full circle by offsets whose product overflows. -/
def hugeOffsetBlock : Block := .ofPairs 1 [('G', 2.0), ('X', 0.0), ('I', 1e20), ('J', 1e20)]

/-- The arc over the huge chord. -/
def hugeChordArc : Arc Float32 := ⟨.xy, ⟨5e19, 0.0⟩, -Single.halfTurn, -Single.halfTurn, 0.0⟩

/-- The arc by the huge offsets. -/
def hugeOffsetArc : Arc Float32 := ⟨.xy, ⟨1e20, 1e20⟩, -Single.halfTurn, 0.0 / 0.0, 1.0 / 0.0⟩

/-- The arc over the huge chord turns, but has no radius; and that by the huge offsets ends where it
starts, but is no full circle. -/
theorem execute_hugeArcs :
    IsDirectionAngle axisAngle ∧ KeepsNaN axisAngle ∧
      (((initial .default).executeBy axisAngle .default hugeChordBlock).move? =
          some (.make (.arc hugeChordArc) Vec3.zero ⟨1e20, 0.0, 0.0⟩ 900.0 1 .normal) ∧
        IsNumber hugeChordArc.sweep ∧ ¬ 0.0 < hugeChordArc.radius) ∧
      ((initial .default).executeBy axisAngle .default hugeOffsetBlock).move? =
          some (.make (.arc hugeOffsetArc) Vec3.zero Vec3.zero 900.0 1 .normal) ∧
        hugeOffsetBlock.value? 'R' = (none : Option Float32) ∧
        ((initial .default).executeBy axisAngle .default hugeOffsetBlock).machine.motion =
          .clockwise ∧ hugeOffsetArc.sweep ≠ -Scalar.tau :=
  ⟨isDirectionAngle_axisAngle, keepsNaN_axisAngle,
    ⟨by decide +kernel, by decide +kernel, by decide +kernel⟩, by decide +kernel, by decide +kernel,
      by decide +kernel, by decide +kernel⟩

end Machine

end Toolpath
