import Mathlib.Order.Interval.Set.LinearOrder
import Mathlib.Order.Monotone.Union
import Mathlib.Tactic.FieldSimp
import Toolpath.Proofs.PassageTheorems
import Toolpath.Proofs.ProfileTheorems

/-!
# Reading back a profile

Over the reals the passages along a planned move are those of motion under constant acceleration.
The squared speed at a distance is the least of the peak and of what can be reached from the entry
and to the exit, `Move.speedSqAt`; the mean speed between two points of a phase, over the time
between them, is their distance.

* In each phase speed and time follow from the distance (`Phase.IsReadBack`). Gaining and losing
  speed is one law with an acceleration of either sign (`Phase.isReadBack_of_ramp`).
* The phases of a move cover its way without gaps (`Covers`), so its time at a distance is the sum
  of the times in all phases (`before_add_timeAt`), and grows along the way.
* A move that joins two squared speeds is read back between them (`Move.IsReadBack`), and so is
  every move of a planned chain.
-/

namespace Toolpath

open Scalar

/-! ## Phases -/

namespace Phase

variable {p : Phase ℝ} {m : Move ℝ} {x x' : ℝ}

/-- The time at which a distance along the move is passed, since the phase began. -/
noncomputable def timeAt (p : Phase ℝ) (m : Move ℝ) (x : ℝ) : ℝ := (p.passage m (p.shareAt x)).time

/-- Within a phase the share that is done stands for the distance from its start. -/
theorem length_mul_shareAt (hlt : p.start < p.stop) (hx : x ∈ Set.Icc p.start p.stop) :
    p.length * p.shareAt x = x - p.start := by
  have hlength : 0 < p.length := sub_pos.2 hlt
  have hzero : (0.0 : ℝ) = 0 := by norm_num
  have hone : (1.0 : ℝ) = 1 := by norm_num
  have hle : (x - p.start) / p.length ≤ 1 := by
    rw [div_le_one hlength]
    exact sub_le_sub_right hx.2 _
  rw [shareAt, hzero, hone, if_pos hlength,
    clamp_of_mem (div_nonneg (sub_nonneg.2 hx.1) hlength.le) hle]
  field_simp

/-- Before a phase its time is the one at its start. -/
theorem timeAt_of_le (hlt : p.start < p.stop) (hx : x ≤ p.start) :
    p.timeAt m x = p.timeAt m p.start := by
  have hlength : 0 < p.length := sub_pos.2 hlt
  have hshare : p.shareAt x = p.shareAt p.start := by
    have hnonpos : (x - p.start) / p.length ≤ 0 :=
      div_nonpos_of_nonpos_of_nonneg (by linarith) hlength.le
    have hzero : (0.0 : ℝ) = 0 := by norm_num
    have hone : (1.0 : ℝ) = 1 := by norm_num
    rw [shareAt, shareAt, if_pos (hzero.trans_lt hlength), if_pos (hzero.trans_lt hlength), hzero,
      hone, sub_self, zero_div, clamp_of_mem le_rfl zero_le_one]
    unfold clamp
    split_ifs <;> linarith
  rw [timeAt, timeAt, hshare]

/-- Behind a phase its time is the one at its stop. -/
theorem timeAt_of_ge (hlt : p.start < p.stop) (hx : p.stop ≤ x) :
    p.timeAt m x = p.timeAt m p.stop := by
  have hlength : 0 < p.length := sub_pos.2 hlt
  have hshare : p.shareAt x = p.shareAt p.stop := by
    have hwhole : (p.stop - p.start) / p.length = 1 := div_self hlength.ne'
    have hmore : 1 ≤ (x - p.start) / p.length := by
      rw [one_le_div hlength]
      exact sub_le_sub_right hx _
    have hzero : (0.0 : ℝ) = 0 := by norm_num
    have hone : (1.0 : ℝ) = 1 := by norm_num
    rw [shareAt, shareAt, if_pos (hzero.trans_lt hlength), if_pos (hzero.trans_lt hlength), hzero,
      hone, hwhole, clamp_of_mem zero_le_one le_rfl]
    unfold clamp
    split_ifs <;> linarith
  rw [timeAt, timeAt, hshare]

/-- Speed and time are read back along a phase: the speed is the root of a given squared speed, the
phase takes its duration, and the mean speed between two points covers their distance. -/
structure IsReadBack (p : Phase ℝ) (m : Move ℝ) (speedSq : ℝ → ℝ) : Prop where
  start_lt : p.start < p.stop
  speed_eq : ∀ x ∈ Set.Icc p.start p.stop, (p.passage m (p.shareAt x)).speed = √(speedSq x)
  time_start : p.timeAt m p.start = 0
  time_stop : p.timeAt m p.stop = p.duration
  travel : ∀ x ∈ Set.Icc p.start p.stop, ∀ x' ∈ Set.Icc p.start p.stop,
    (√(speedSq x) + √(speedSq x')) / 2 * (p.timeAt m x' - p.timeAt m x) = x' - x

namespace IsReadBack

variable {speedSq : ℝ → ℝ}

/-- Points farther along a phase are passed later. -/
theorem strictMonoOn (h : p.IsReadBack m speedSq) :
    StrictMonoOn (p.timeAt m) (Set.Icc p.start p.stop) := by
  intro x hx x' hx' hlt
  have htravel := h.travel x hx x' hx'
  have hspeed : 0 ≤ (√(speedSq x) + √(speedSq x')) / 2 :=
    div_nonneg (add_nonneg (Real.sqrt_nonneg _) (Real.sqrt_nonneg _)) two_pos.le
  have hpos : 0 < (√(speedSq x) + √(speedSq x')) / 2 * (p.timeAt m x' - p.timeAt m x) := by
    rw [htravel]
    linarith
  exact sub_pos.1 (pos_of_mul_pos_right hpos hspeed)

theorem timeAt_before (h : p.IsReadBack m speedSq) (hx : x ≤ p.start) : p.timeAt m x = 0 := by
  rw [timeAt_of_le h.start_lt hx, h.time_start]

theorem timeAt_behind (h : p.IsReadBack m speedSq) (hx : p.stop ≤ x) :
    p.timeAt m x = p.duration := by
  rw [timeAt_of_ge h.start_lt hx, h.time_stop]

/-- The time in a phase is within its duration, wherever it is read. -/
theorem timeAt_mem (h : p.IsReadBack m speedSq) (x : ℝ) :
    0 ≤ p.timeAt m x ∧ p.timeAt m x ≤ p.duration := by
  have hstart : p.start ∈ Set.Icc p.start p.stop := Set.left_mem_Icc.2 h.start_lt.le
  have hstop : p.stop ∈ Set.Icc p.start p.stop := Set.right_mem_Icc.2 h.start_lt.le
  have hmono := h.strictMonoOn.monotoneOn
  rcases le_total x p.start with hbefore | hbefore
  · have hwhole := hmono hstart hstop h.start_lt.le
    rw [h.time_start, h.time_stop] at hwhole
    rw [h.timeAt_before hbefore]
    exact ⟨le_rfl, hwhole⟩
  rcases le_total p.stop x with hbehind | hbehind
  · have hwhole := hmono hstart hstop h.start_lt.le
    rw [h.time_start, h.time_stop] at hwhole
    rw [h.timeAt_behind hbehind]
    exact ⟨hwhole, le_rfl⟩
  · have hlo := hmono hstart ⟨hbefore, hbehind⟩ hbefore
    have hhi := hmono ⟨hbefore, hbehind⟩ hstop hbehind
    rw [h.time_start] at hlo
    rw [h.time_stop] at hhi
    exact ⟨hlo, hhi⟩

/-- The clamp never changes the time in a phase. -/
theorem clampBetween_timeAt (h : p.IsReadBack m speedSq) (x : ℝ) :
    clampBetween (p.timeAt m x) 0.0 p.duration = .ok (p.timeAt m x) := by
  have hzero : (0.0 : ℝ) = 0 := by norm_num
  obtain ⟨hlo, hhi⟩ := h.timeAt_mem x
  rw [hzero, clampBetween_of_le (hlo.trans hhi), clamp_of_mem hlo hhi]

end IsReadBack

/-! ## The laws of the three kinds -/

/-- Under a constant acceleration, of either sign, a phase is read back where its time is the change
of speed over the acceleration. -/
theorem isReadBack_of_ramp {speedSq : ℝ → ℝ} {k : ℝ} (hk : k ≠ 0) (hlt : p.start < p.stop)
    (hnonneg : ∀ x ∈ Set.Icc p.start p.stop, 0 ≤ speedSq x)
    (hramp : ∀ x ∈ Set.Icc p.start p.stop,
      speedSq x = speedSq p.start + 2 * k * (x - p.start))
    (hspeed : ∀ x ∈ Set.Icc p.start p.stop, (p.passage m (p.shareAt x)).speed = √(speedSq x))
    (htime : ∀ x ∈ Set.Icc p.start p.stop,
      p.timeAt m x = (√(speedSq x) - √(speedSq p.start)) / k)
    (hduration : p.duration = (√(speedSq p.stop) - √(speedSq p.start)) / k) :
    p.IsReadBack m speedSq where
  start_lt := hlt
  speed_eq := hspeed
  time_start := by
    rw [htime _ (Set.left_mem_Icc.2 hlt.le), sub_self, zero_div]
  time_stop := by
    rw [htime _ (Set.right_mem_Icc.2 hlt.le), hduration]
  travel := by
    intro x hx x' hx'
    -- the mean speed times the change of speed is half the change of the squares
    have hsq := Real.mul_self_sqrt (hnonneg x hx)
    have hsq' := Real.mul_self_sqrt (hnonneg x' hx')
    have hchange : √(speedSq x') * √(speedSq x') - √(speedSq x) * √(speedSq x) =
        2 * k * (x' - x) := by
      rw [hsq, hsq', hramp x hx, hramp x' hx']
      ring
    rw [htime x hx, htime x' hx']
    field_simp
    linarith

/-- Twice the way from rest, over an acceleration, gives back the speed and the time it takes. -/
theorem sqrt_of_way {a s : ℝ} (ha : 0 < a) (hs : 0 ≤ s) :
    √(a * max (2 * (s / (2 * a))) 0) = √s ∧ √(max (2 * (s / (2 * a))) 0 / a) = √s / a := by
  have htwice : max (2 * (s / (2 * a))) 0 = s / a := by
    have hhalf : 2 * (s / (2 * a)) = s / a := by field_simp
    rw [hhalf, max_eq_left (div_nonneg hs ha.le)]
  rw [htwice, mul_div_cancel₀ _ ha.ne', div_div, Real.sqrt_div' _ (mul_self_nonneg a),
    Real.sqrt_mul_self ha.le]
  exact ⟨rfl, rfl⟩

/-- The passage while speed is gained, by the squared speed at the distance. -/
theorem passage_accel {s : ℝ} (hkind : p.kind = .accel) (hlt : p.start < p.stop)
    (hx : x ∈ Set.Icc p.start p.stop) (ha : 0 < m.maxAccel) (hs : 0 ≤ s)
    (hway : m.profile.entryRamp + (x - p.start) = s / (2 * m.maxAccel)) :
    (p.passage m (p.shareAt x)).speed = √s ∧ p.timeAt m x = (√s - √p.fromSq) / m.maxAccel := by
  have htwo : (2.0 : ℝ) = 2 := by norm_num
  have hzero : (0.0 : ℝ) = 0 := by norm_num
  obtain ⟨hspeed, htime⟩ := sqrt_of_way ha hs
  unfold timeAt passage
  simp only [hkind, length_mul_shareAt hlt hx, hway, htwo, hzero, greatest_eq_max]
  exact ⟨hspeed, by rw [sub_div, ← htime]; rfl⟩

/-- The passage while speed is lost. -/
theorem passage_decel {s : ℝ} (hkind : p.kind = .decel) (hlt : p.start < p.stop)
    (hx : x ∈ Set.Icc p.start p.stop) (ha : 0 < m.maxAccel) (hs : 0 ≤ s)
    (hway : m.profile.exitRamp + (p.stop - x) = s / (2 * m.maxAccel)) :
    (p.passage m (p.shareAt x)).speed = √s ∧
      p.timeAt m x = p.duration - (√s - √p.toSq) / m.maxAccel := by
  have htwo : (2.0 : ℝ) = 2 := by norm_num
  have hzero : (0.0 : ℝ) = 0 := by norm_num
  obtain ⟨hspeed, htime⟩ := sqrt_of_way ha hs
  have hrest : m.profile.exitRamp + p.length - (x - p.start) = s / (2 * m.maxAccel) := by
    rw [← hway, Phase.length]
    ring
  unfold timeAt passage
  simp only [hkind, length_mul_shareAt hlt hx, hrest, htwo, hzero, greatest_eq_max]
  refine ⟨hspeed, ?_⟩
  show √p.toSq / m.maxAccel + p.duration - √(_ / m.maxAccel) = _
  rw [htime]
  ring

section Timed

variable {speedSq : ℝ → ℝ} {start stop fromSq toSq topSq : ℝ}

theorem isReadBack_accel (ha : 0 < m.maxAccel) (hlt : start < stop)
    (hentry : m.profile.entryRamp = fromSq / (2 * m.maxAccel)) (hfrom : 0 ≤ fromSq)
    (hramp : ∀ x ∈ Set.Icc start stop, speedSq x = fromSq + 2 * m.maxAccel * (x - start))
    (htop : speedSq stop = topSq) :
    (Phase.timed .accel start stop fromSq topSq topSq m.maxAccel).IsReadBack m speedSq := by
  have hstart : speedSq start = fromSq := by
    rw [hramp start (Set.left_mem_Icc.2 hlt.le), sub_self, mul_zero, add_zero]
  have hgain : ∀ x ∈ Set.Icc start stop, 0 ≤ m.maxAccel * (x - start) :=
    fun x hx => mul_nonneg ha.le (sub_nonneg.2 hx.1)
  have hnonneg : ∀ x ∈ Set.Icc start stop, 0 ≤ speedSq x := by
    intro x hx
    rw [hramp x hx]
    linarith [hgain x hx]
  -- the entry ramp is the way in which the move would have reached its entry speed from rest
  have hpassage : ∀ x ∈ Set.Icc start stop, _ := fun x hx =>
    passage_accel (p := .timed .accel start stop fromSq topSq topSq m.maxAccel) rfl hlt hx ha
      (hnonneg x hx) (by
        rw [hentry, hramp x hx]
        show _ + (x - start) = _
        field_simp)
  refine isReadBack_of_ramp ha.ne' hlt hnonneg ?_ (fun x hx => (hpassage x hx).1) ?_ ?_
  · intro x hx
    show speedSq x = speedSq start + 2 * m.maxAccel * (x - start)
    rw [hramp x hx, hstart]
  · intro x hx
    show _ = (√(speedSq x) - √(speedSq start)) / m.maxAccel
    rw [(hpassage x hx).2, hstart]
    rfl
  · show |√fromSq - √topSq| / m.maxAccel = (√(speedSq stop) - √(speedSq start)) / m.maxAccel
    have hle : fromSq ≤ topSq := by
      rw [← htop, hramp stop (Set.right_mem_Icc.2 hlt.le)]
      linarith [hgain stop (Set.right_mem_Icc.2 hlt.le)]
    rw [htop, hstart, abs_sub_comm, abs_of_nonneg (sub_nonneg.2 (Real.sqrt_le_sqrt hle))]

theorem isReadBack_decel (ha : 0 < m.maxAccel) (hlt : start < stop)
    (hexit : m.profile.exitRamp = toSq / (2 * m.maxAccel)) (hto : 0 ≤ toSq)
    (hramp : ∀ x ∈ Set.Icc start stop, speedSq x = toSq + 2 * m.maxAccel * (stop - x))
    (htop : speedSq start = topSq) :
    (Phase.timed .decel start stop topSq toSq topSq m.maxAccel).IsReadBack m speedSq := by
  have hstop : speedSq stop = toSq := by
    rw [hramp stop (Set.right_mem_Icc.2 hlt.le), sub_self, mul_zero, add_zero]
  have hloss : ∀ x ∈ Set.Icc start stop, 0 ≤ m.maxAccel * (stop - x) :=
    fun x hx => mul_nonneg ha.le (sub_nonneg.2 hx.2)
  have hnonneg : ∀ x ∈ Set.Icc start stop, 0 ≤ speedSq x := by
    intro x hx
    rw [hramp x hx]
    linarith [hloss x hx]
  -- the exit ramp is the way in which the move would come to rest behind its end
  have hpassage : ∀ x ∈ Set.Icc start stop, _ := fun x hx =>
    passage_decel (p := .timed .decel start stop topSq toSq topSq m.maxAccel) rfl hlt hx ha
      (hnonneg x hx) (by
        rw [hexit, hramp x hx]
        show _ + (stop - x) = _
        field_simp)
  have hduration : (Phase.timed .decel start stop topSq toSq topSq m.maxAccel).duration =
      (√topSq - √toSq) / m.maxAccel := by
    have hle : toSq ≤ topSq := by
      rw [← htop, hramp start (Set.left_mem_Icc.2 hlt.le)]
      linarith [hloss start (Set.left_mem_Icc.2 hlt.le)]
    show |√topSq - √toSq| / m.maxAccel = _
    rw [abs_of_nonneg (sub_nonneg.2 (Real.sqrt_le_sqrt hle))]
  refine isReadBack_of_ramp (neg_ne_zero.2 ha.ne') hlt hnonneg ?_ (fun x hx => (hpassage x hx).1)
    ?_ ?_
  · intro x hx
    show speedSq x = speedSq start + 2 * -m.maxAccel * (x - start)
    rw [hramp x hx, hramp start (Set.left_mem_Icc.2 hlt.le)]
    ring
  · intro x hx
    show _ = (√(speedSq x) - √(speedSq start)) / -m.maxAccel
    rw [(hpassage x hx).2, hduration, htop]
    show _ - (_ - √toSq) / _ = _
    ring
  · show _ = (√(speedSq stop) - √(speedSq start)) / -m.maxAccel
    rw [hduration, htop, hstop]
    ring

theorem isReadBack_const (hlt : start < stop) (htop : 0 < topSq)
    (hconst : ∀ x ∈ Set.Icc start stop, speedSq x = topSq) :
    (Phase.timed .const start stop topSq topSq topSq m.maxAccel).IsReadBack m speedSq := by
  have hzero : (0.0 : ℝ) = 0 := by norm_num
  have hspeed : 0 < √topSq := Real.sqrt_pos.2 htop
  have hlength : 0 < stop - start := sub_pos.2 hlt
  have hduration : (Phase.timed .const start stop topSq topSq topSq m.maxAccel).duration =
      (stop - start) / √topSq := by
    rw [← hzero] at hspeed
    exact if_pos hspeed
  -- at one speed the time is the way divided by it
  have htime : ∀ x ∈ Set.Icc start stop,
      (Phase.timed .const start stop topSq topSq topSq m.maxAccel).timeAt m x =
        (x - start) / √topSq := by
    intro x hx
    have hshare : (stop - start) * _ = x - start :=
      length_mul_shareAt (p := .timed .const start stop topSq topSq topSq m.maxAccel) hlt hx
    show (Phase.timed .const start stop topSq topSq topSq m.maxAccel).duration * _ = _
    rw [hduration, ← hshare]
    ring
  constructor
  case start_lt => exact hlt
  case speed_eq =>
    intro x hx
    rw [hconst x hx]
    rfl
  case time_start =>
    show timeAt _ m start = 0
    rw [htime start (Set.left_mem_Icc.2 hlt.le), sub_self, zero_div]
  case time_stop =>
    show timeAt _ m stop = _
    rw [htime stop (Set.right_mem_Icc.2 hlt.le), hduration]
  case travel =>
    intro x hx x' hx'
    rw [htime x hx, htime x' hx', hconst x hx, hconst x' hx']
    field_simp
    ring

end Timed

end Phase

/-! ## The way of a move -/

/-- Phases that are not empty follow one another without gaps, from one distance to another. -/
def Covers : List (Phase ℝ) → ℝ → ℝ → Prop
  | [], start, stop => start = stop
  | p :: rest, start, stop => p.start = start ∧ p.start < p.stop ∧ Covers rest p.stop stop

namespace Covers

variable {phases rest : List (Phase ℝ)} {p : Phase ℝ} {start middle stop x x' : ℝ}

theorem append (h : Covers phases start middle) (h' : Covers rest middle stop) :
    Covers (phases ++ rest) start stop := by
  induction phases generalizing start with
  | nil =>
    obtain rfl : start = middle := h
    exact h'
  | cons q others ih =>
    obtain ⟨hstart, hlt, hothers⟩ := h
    exact ⟨hstart, hlt, ih hothers⟩

/-- A stretch is covered by its phase, or by none where it is empty. -/
theorem ite (hle : start ≤ stop) (hstart : p.start = start) (hstop : p.stop = stop) :
    Covers (if start < stop then [p] else []) start stop := by
  split_ifs with hlt
  · exact ⟨hstart, by rw [hstart, hstop]; exact hlt, hstop⟩
  · exact le_antisymm hle (not_lt.1 hlt)

theorem le (h : Covers phases start stop) : start ≤ stop := by
  induction phases generalizing start with
  | nil => exact le_of_eq h
  | cons q others ih =>
    obtain ⟨rfl, hlt, hothers⟩ := h
    exact hlt.le.trans (ih hothers)

theorem start_le (h : Covers phases start stop) (hp : p ∈ phases) : start ≤ p.start := by
  induction phases generalizing start with
  | nil => exact absurd hp List.not_mem_nil
  | cons q others ih =>
    obtain ⟨rfl, hlt, hothers⟩ := h
    rcases List.mem_cons.1 hp with rfl | hp
    · exact le_rfl
    · exact hlt.le.trans (ih hothers hp)

/-- The phase at a distance holds it. -/
theorem mem_of_phaseAt? {elapsed before : ℝ} (h : Covers phases start stop)
    (hx : x ∈ Set.Icc start stop) (hat : phaseAt? x elapsed phases = some (before, p)) :
    x ∈ Set.Icc p.start p.stop := by
  induction phases generalizing start elapsed with
  | nil => cases hat
  | cons q others ih =>
    obtain ⟨rfl, -, hothers⟩ := h
    cases others with
    | nil =>
      cases hat
      exact ⟨hx.1, hx.2.trans (le_of_eq hothers.symm)⟩
    | cons r others =>
      rw [phaseAt?_cons_cons] at hat
      split_ifs at hat with hle
      · cases hat
        exact ⟨hx.1, hle⟩
      · exact ih hothers ⟨(not_le.1 hle).le, hx.2⟩ hat

/-! ### The time in all phases -/

section Times

variable {m : Move ℝ} {speedSq : ℝ → ℝ}

theorem sum_timeAt_before (h : Covers phases start stop)
    (hread : ∀ p ∈ phases, p.IsReadBack m speedSq) (hx : x ≤ start) :
    (phases.map (·.timeAt m x)).sum = 0 := by
  apply List.sum_eq_zero
  intro t ht
  obtain ⟨p, hp, rfl⟩ := List.mem_map.1 ht
  exact (hread p hp).timeAt_before (hx.trans (h.start_le hp))

/-- The time before the phase at a distance, and that within it, are the times in all phases: those
behind it take none yet. -/
theorem before_add_timeAt {elapsed before : ℝ} (h : Covers phases start stop)
    (hread : ∀ p ∈ phases, p.IsReadBack m speedSq)
    (hat : phaseAt? x elapsed phases = some (before, p)) :
    before + p.timeAt m x = elapsed + (phases.map (·.timeAt m x)).sum := by
  induction phases generalizing start elapsed with
  | nil => cases hat
  | cons q others ih =>
    obtain ⟨rfl, -, hothers⟩ := h
    obtain ⟨hq, hrest⟩ := List.forall_mem_cons.1 hread
    rw [List.map_cons, List.sum_cons]
    cases others with
    | nil =>
      cases hat
      rw [List.map_nil, List.sum_nil, add_zero]
    | cons r others =>
      rw [phaseAt?_cons_cons] at hat
      split_ifs at hat with hle
      · cases hat
        rw [hothers.sum_timeAt_before hrest hle, add_zero]
      · rw [ih hothers hrest hat, hq.timeAt_behind (not_le.1 hle).le, add_assoc]

/-- Points farther along the way are passed later. -/
theorem strictMonoOn_sum (h : Covers phases start stop)
    (hread : ∀ p ∈ phases, p.IsReadBack m speedSq) :
    StrictMonoOn (fun x => (phases.map (·.timeAt m x)).sum) (Set.Icc start stop) := by
  induction phases generalizing start with
  | nil =>
    obtain rfl : start = stop := h
    rw [Set.Icc_self]
    exact Set.subsingleton_singleton.strictMonoOn _
  | cons q others ih =>
    obtain ⟨rfl, hlt, hothers⟩ := h
    obtain ⟨hq, hrest⟩ := List.forall_mem_cons.1 hread
    simp only [List.map_cons, List.sum_cons]
    -- up to the end of the first phase only its own time grows, from there on only the others
    have hfirst : StrictMonoOn (fun x => q.timeAt m x + (others.map (·.timeAt m x)).sum)
        (Set.Icc q.start q.stop) := by
      intro x hx x' hx' hxx'
      dsimp only
      rw [hothers.sum_timeAt_before hrest hx.2, hothers.sum_timeAt_before hrest hx'.2]
      exact add_lt_add_left (hq.strictMonoOn hx hx' hxx') 0
    have hnext : StrictMonoOn (fun x => q.timeAt m x + (others.map (·.timeAt m x)).sum)
        (Set.Icc q.stop stop) := by
      intro x hx x' hx' hxx'
      dsimp only
      rw [hq.timeAt_behind hx.1, hq.timeAt_behind hx'.1]
      exact add_lt_add_right (ih hothers hrest hx hx' hxx') _
    rw [← Set.Icc_union_Icc_eq_Icc hlt.le hothers.le]
    exact hfirst.union hnext (isGreatest_Icc hlt.le) (isLeast_Icc hothers.le)

theorem sum_timeAt_stop (h : Covers phases start stop)
    (hread : ∀ p ∈ phases, p.IsReadBack m speedSq) :
    (phases.map (·.timeAt m stop)).sum = (phases.map (·.duration)).sum := by
  induction phases generalizing start with
  | nil => rfl
  | cons q others ih =>
    obtain ⟨rfl, -, hothers⟩ := h
    obtain ⟨hq, hrest⟩ := List.forall_mem_cons.1 hread
    rw [List.map_cons, List.sum_cons, List.map_cons, List.sum_cons, ih hothers hrest,
      hq.timeAt_behind hothers.le]

/-- Between two points of one phase only the time in this phase changes. -/
theorem sum_timeAt_sub (h : Covers phases start stop)
    (hread : ∀ p ∈ phases, p.IsReadBack m speedSq) (hp : p ∈ phases)
    (hx : x ∈ Set.Icc p.start p.stop) (hx' : x' ∈ Set.Icc p.start p.stop) :
    (phases.map (·.timeAt m x')).sum - (phases.map (·.timeAt m x)).sum =
      p.timeAt m x' - p.timeAt m x := by
  induction phases generalizing start with
  | nil => exact absurd hp List.not_mem_nil
  | cons q others ih =>
    obtain ⟨rfl, -, hothers⟩ := h
    obtain ⟨hq, hrest⟩ := List.forall_mem_cons.1 hread
    rw [List.map_cons, List.sum_cons, List.map_cons, List.sum_cons]
    rcases List.mem_cons.1 hp with rfl | hp
    · rw [hothers.sum_timeAt_before hrest hx.2, hothers.sum_timeAt_before hrest hx'.2]
      ring
    · have hle := hothers.start_le hp
      rw [hq.timeAt_behind (hle.trans hx.1), hq.timeAt_behind (hle.trans hx'.1),
        add_sub_add_left_eq_sub, ih hothers hrest hp]

end Times

end Covers

/-! ## Moves -/

/-- The squared speed at a distance along a planned move: its peak, or less, as far as the speed at
either end can be changed up to there. -/
noncomputable def Move.speedSqAt (m : Move ℝ) (entrySq exitSq x : ℝ) : ℝ :=
  min m.peakSq
    (min (entrySq + 2 * m.maxAccel * x) (exitSq + 2 * m.maxAccel * (m.length - x)))

/-- A move is read back between two squared speeds: what its passages are. -/
structure Move.IsReadBack (m : Move ℝ) (entrySq exitSq : ℝ) (passage : ℝ → Passage ℝ) : Prop where
  passageAt_eq : ∀ ratio ∈ Set.Icc (0 : ℝ) 1, m.passageAt ratio = .ok (passage ratio)
  speed_nonneg : ∀ ratio ∈ Set.Icc (0 : ℝ) 1, 0 ≤ (passage ratio).speed
  speed_sq : ∀ ratio ∈ Set.Icc (0 : ℝ) 1,
    (passage ratio).speed ^ 2 = m.speedSqAt entrySq exitSq (m.length * ratio)
  /-- The time runs from zero to the duration of the move. -/
  start : (passage 0).time = 0
  stop : (passage 1).time = m.profile.duration
  strictMonoOn : StrictMonoOn (fun ratio => (passage ratio).time) (Set.Icc 0 1)
  /-- The clamp never changes the time in a phase. -/
  unclamped : ∀ ratio ∈ Set.Icc (0 : ℝ) 1, ∀ before p,
    phaseAt? (m.length * ratio) 0.0 m.profile.phases = some (before, p) →
    clampBetween (p.passage m (p.shareAt (m.length * ratio))).time 0.0 p.duration =
      .ok (p.passage m (p.shareAt (m.length * ratio))).time
  /-- In a phase the mean speed over the time between two points is their distance. -/
  travel : ∀ p ∈ m.profile.phases, ∀ ratio ∈ Set.Icc (0 : ℝ) 1, ∀ ratio' ∈ Set.Icc (0 : ℝ) 1,
    m.length * ratio ∈ Set.Icc p.start p.stop → m.length * ratio' ∈ Set.Icc p.start p.stop →
    ((passage ratio).speed + (passage ratio').speed) / 2 *
      ((passage ratio').time - (passage ratio).time) = m.length * ratio' - m.length * ratio

/-- A move is read back if its phases cover its way and are read back themselves. -/
theorem Move.isReadBack_of_covers {m : Move ℝ} {entrySq exitSq : ℝ} (hlength : 0 < m.length)
    (hcovers : Covers m.profile.phases 0 m.length)
    (hread : ∀ p ∈ m.profile.phases, p.IsReadBack m (m.speedSqAt entrySq exitSq))
    (hduration : m.profile.duration = (m.profile.phases.map (·.duration)).sum)
    (hnonneg : ∀ x ∈ Set.Icc 0 m.length, 0 ≤ m.speedSqAt entrySq exitSq x) :
    m.IsReadBack entrySq exitSq fun ratio =>
      ⟨√(m.speedSqAt entrySq exitSq (m.length * ratio)),
        (m.profile.phases.map (·.timeAt m (m.length * ratio))).sum⟩ := by
  have hzero : (0.0 : ℝ) = 0 := by norm_num
  have hway : ∀ ratio ∈ Set.Icc (0 : ℝ) 1, m.length * ratio ∈ Set.Icc 0 m.length :=
    fun ratio hratio => ⟨mul_nonneg hlength.le hratio.1, mul_le_of_le_one_right hlength.le hratio.2⟩
  have hne : m.profile.phases ≠ [] := by
    intro hnil
    rw [hnil] at hcovers
    exact hlength.ne hcovers
  constructor
  case passageAt_eq =>
    intro ratio hratio
    obtain ⟨⟨before, p⟩, hat⟩ : ∃ found,
        phaseAt? (m.length * ratio) 0.0 m.profile.phases = some found := exists_phaseAt? hne
    have hp := hread p (Toolpath.mem_of_phaseAt? hat)
    -- the phase found gives the speed, and the phases before it the time at which it starts
    have hspeed := hp.speed_eq _ (hcovers.mem_of_phaseAt? (hway ratio hratio) hat)
    have htime := hcovers.before_add_timeAt hread hat
    rw [hzero, zero_add] at htime
    unfold Move.passageAt
    dsimp only
    rw [hat]
    dsimp only
    rw [show (p.passage m (p.shareAt (m.length * ratio))).time = p.timeAt m (m.length * ratio)
      from rfl, hp.clampBetween_timeAt, ← hspeed, ← htime]
    rfl
  case speed_nonneg => exact fun ratio _ => Real.sqrt_nonneg _
  case speed_sq => exact fun ratio hratio => Real.sq_sqrt (hnonneg _ (hway ratio hratio))
  case start =>
    dsimp only
    rw [mul_zero, hcovers.sum_timeAt_before hread le_rfl]
  case stop =>
    dsimp only
    rw [mul_one, hcovers.sum_timeAt_stop hread, hduration]
  case strictMonoOn =>
    intro ratio hratio ratio' hratio' hlt
    exact hcovers.strictMonoOn_sum hread (hway ratio hratio) (hway ratio' hratio')
      (mul_lt_mul_of_pos_left hlt hlength)
  case unclamped =>
    intro ratio _ before p hat
    exact (hread p (Toolpath.mem_of_phaseAt? hat)).clampBetween_timeAt _
  case travel =>
    intro p hp ratio _ ratio' _ hx hx'
    dsimp only
    rw [hcovers.sum_timeAt_sub hread hp hx hx']
    exact (hread p hp).travel _ hx _ hx'

namespace Move.Joins

variable {m : Move ℝ} {entrySq exitSq x : ℝ}

theorem entrySq_add_ramp (h : m.Joins entrySq exitSq) :
    entrySq + 2 * m.maxAccel * m.accelStop entrySq exitSq = m.crestSq entrySq exitSq := by
  have hne := h.accel_pos.ne'
  rw [Move.accelStop]
  field_simp
  ring

theorem exitSq_add_ramp (h : m.Joins entrySq exitSq) :
    exitSq + 2 * m.maxAccel * (m.length - m.decelStart entrySq exitSq) =
      m.crestSq entrySq exitSq := by
  have hne := h.accel_pos.ne'
  rw [Move.decelStart]
  field_simp
  ring

theorem speedSqAt_joined (m : Move ℝ) (entrySq exitSq x : ℝ) :
    (m.joined entrySq exitSq).speedSqAt entrySq exitSq x = min (m.crestSq entrySq exitSq)
      (min (entrySq + 2 * m.maxAccel * x) (exitSq + 2 * m.maxAccel * (m.length - x))) := rfl

/-- The ramp from the entry reaches the crest where the move stops gaining speed. -/
theorem entry_ramp_le_iff (h : m.Joins entrySq exitSq) :
    entrySq + 2 * m.maxAccel * x ≤ m.crestSq entrySq exitSq ↔ x ≤ m.accelStop entrySq exitSq := by
  rw [← h.entrySq_add_ramp, add_le_add_iff_left]
  exact mul_le_mul_iff_right₀ (mul_pos two_pos h.accel_pos)

theorem le_entry_ramp_iff (h : m.Joins entrySq exitSq) :
    m.crestSq entrySq exitSq ≤ entrySq + 2 * m.maxAccel * x ↔ m.accelStop entrySq exitSq ≤ x := by
  rw [← h.entrySq_add_ramp, add_le_add_iff_left]
  exact mul_le_mul_iff_right₀ (mul_pos two_pos h.accel_pos)

/-- The ramp to the exit leaves the crest where the move starts losing speed. -/
theorem exit_ramp_le_iff (h : m.Joins entrySq exitSq) :
    exitSq + 2 * m.maxAccel * (m.length - x) ≤ m.crestSq entrySq exitSq ↔
      m.decelStart entrySq exitSq ≤ x := by
  rw [← h.exitSq_add_ramp, add_le_add_iff_left]
  exact (mul_le_mul_iff_right₀ (mul_pos two_pos h.accel_pos)).trans (sub_le_sub_iff_left _)

theorem le_exit_ramp_iff (h : m.Joins entrySq exitSq) :
    m.crestSq entrySq exitSq ≤ exitSq + 2 * m.maxAccel * (m.length - x) ↔
      x ≤ m.decelStart entrySq exitSq := by
  rw [← h.exitSq_add_ramp, add_le_add_iff_left]
  exact (mul_le_mul_iff_right₀ (mul_pos two_pos h.accel_pos)).trans (sub_le_sub_iff_left _)

/-- Up to where the crest is reached, the squared speed is that of the ramp from the entry. -/
theorem speedSqAt_accel (h : m.Joins entrySq exitSq) (hx : x ≤ m.accelStop entrySq exitSq) :
    (m.joined entrySq exitSq).speedSqAt entrySq exitSq x = entrySq + 2 * m.maxAccel * x := by
  have hentry := h.entry_ramp_le_iff.2 hx
  have hexit := h.le_exit_ramp_iff.2 (hx.trans h.accelStop_le_decelStart)
  rw [speedSqAt_joined, min_eq_left (hentry.trans hexit), min_eq_right hentry]

/-- From where the crest is left, it is that of the ramp to the exit. -/
theorem speedSqAt_decel (h : m.Joins entrySq exitSq) (hx : m.decelStart entrySq exitSq ≤ x) :
    (m.joined entrySq exitSq).speedSqAt entrySq exitSq x =
      exitSq + 2 * m.maxAccel * (m.length - x) := by
  have hentry := h.le_entry_ramp_iff.2 (h.accelStop_le_decelStart.trans hx)
  have hexit := h.exit_ramp_le_iff.2 hx
  rw [speedSqAt_joined, min_eq_right (hexit.trans hentry), min_eq_right hexit]

/-- In between it is the crest. -/
theorem speedSqAt_const (h : m.Joins entrySq exitSq) (hx : m.accelStop entrySq exitSq ≤ x)
    (hx' : x ≤ m.decelStart entrySq exitSq) :
    (m.joined entrySq exitSq).speedSqAt entrySq exitSq x = m.crestSq entrySq exitSq := by
  rw [speedSqAt_joined,
    min_eq_left (le_min (h.le_entry_ramp_iff.2 hx) (h.le_exit_ramp_iff.2 hx'))]

theorem speedSqAt_nonneg (h : m.Joins entrySq exitSq) (hx : x ∈ Set.Icc 0 m.length) :
    0 ≤ (m.joined entrySq exitSq).speedSqAt entrySq exitSq x := by
  have htwo : 0 ≤ 2 * m.maxAccel := (mul_pos two_pos h.accel_pos).le
  rw [speedSqAt_joined]
  exact le_min h.crestSq_pos.le (le_min (add_nonneg h.entry_nonneg (mul_nonneg htwo hx.1))
    (add_nonneg h.exit_nonneg (mul_nonneg htwo (sub_nonneg.2 hx.2))))

/-- The phases of a joined move cover its way. -/
theorem covers_joined (h : m.Joins entrySq exitSq) :
    Covers (m.joined entrySq exitSq).profile.phases 0 m.length := by
  have hzero : (0.0 : ℝ) = 0 := by norm_num
  rw [h.phases_joined, phasesBetween, hzero]
  exact ((Covers.ite h.accelStop_nonneg rfl rfl).append
    (Covers.ite h.accelStop_le_decelStart rfl rfl)).append (Covers.ite h.decelStart_le rfl rfl)

/-- Every phase of a joined move is read back. -/
theorem phase_isReadBack (h : m.Joins entrySq exitSq) :
    ∀ p ∈ (m.joined entrySq exitSq).profile.phases,
      p.IsReadBack (m.joined entrySq exitSq)
        ((m.joined entrySq exitSq).speedSqAt entrySq exitSq) := by
  have hzero : (0.0 : ℝ) = 0 := by norm_num
  have htwo : (2.0 : ℝ) = 2 := by norm_num
  have ha : 0 < (m.joined entrySq exitSq).maxAccel := h.accel_pos
  intro p hp
  rw [h.phases_joined, phasesBetween, List.mem_append, List.mem_append] at hp
  rcases hp with (hp | hp) | hp
  · -- speeding up
    split_ifs at hp with hstop
    · rw [List.mem_singleton.1 hp, hzero]
      rw [hzero] at hstop
      refine Phase.isReadBack_accel ha hstop ?_ h.entry_nonneg ?_ ?_
      · show entrySq / (2.0 * m.maxAccel) = _
        rw [htwo]
        rfl
      · intro x hx
        rw [h.speedSqAt_accel hx.2, sub_zero]
        rfl
      · rw [h.speedSqAt_accel le_rfl, h.entrySq_add_ramp]
    · exact absurd hp List.not_mem_nil
  · -- keeping the speed
    split_ifs at hp with hflat
    · rw [List.mem_singleton.1 hp]
      exact Phase.isReadBack_const (m := m.joined entrySq exitSq) hflat h.crestSq_pos
        fun x hx => h.speedSqAt_const hx.1 hx.2
    · exact absurd hp List.not_mem_nil
  · -- slowing down
    split_ifs at hp with hstart
    · rw [List.mem_singleton.1 hp]
      refine Phase.isReadBack_decel ha hstart ?_ h.exit_nonneg ?_ ?_
      · show exitSq / (2.0 * m.maxAccel) = _
        rw [htwo]
        rfl
      · intro x hx
        rw [h.speedSqAt_decel hx.1]
        rfl
      · rw [h.speedSqAt_decel le_rfl, h.exitSq_add_ramp]
    · exact absurd hp List.not_mem_nil

theorem duration_joined (m : Move ℝ) (entrySq exitSq : ℝ) :
    (m.joined entrySq exitSq).profile.duration =
      ((m.joined entrySq exitSq).profile.phases.map (·.duration)).sum := by
  have hzero : (0.0 : ℝ) = 0 := by norm_num
  show List.foldl _ 0.0 _ = _
  rw [foldl_duration, hzero, zero_add]
  rfl

/-- A joined move is read back between its two squared speeds. -/
theorem isReadBack_joined (h : m.Joins entrySq exitSq) :
    ∃ passage, (m.joined entrySq exitSq).IsReadBack entrySq exitSq passage := by
  exact ⟨_, Move.isReadBack_of_covers h.length_pos h.covers_joined h.phase_isReadBack
    (duration_joined m entrySq exitSq) fun x hx => h.speedSqAt_nonneg hx⟩

end Move.Joins

/-! ## Planned chains -/

/-- Planning a chain gives moves that are read back between the speeds at their junctions. -/
theorem plan_isReadBack (c : Chain ℝ) (h : ∀ m ∈ c.moves, m.IsPlannable) :
    ∃ planned, c.plan = .ok planned ∧ planned.moves.length = c.moves.length ∧
      ∀ (i : ℕ) (_ : i < c.moves.length) (_ : i < planned.moves.length),
        c.moves[i].Replanned planned.moves[i] ∧
          ∃ passage, planned.moves[i].IsReadBack (junctionSq (feasiblePeaks c.moves) i)
            (junctionSq (feasiblePeaks c.moves) (i + 1)) passage := by
  obtain ⟨planned, hplan⟩ := exists_plan c
  obtain ⟨hlen, hkept⟩ := replanned_plan hplan
  refine ⟨planned, hplan, hlen, fun i hi hi' => ⟨hkept i hi hi', ?_⟩⟩
  have hback : i < (feasiblePeaks c.moves).length := by rwa [length_feasiblePeaks]
  rw [plan_joined h hplan hback hi']
  exact (joins_junctionSq h hi hback).isReadBack_joined

/-- The two unit moves are read back. -/
theorem plan_isReadBack_pair :
    (∀ m ∈ unitPair.moves, m.IsPlannable) ∧
      ∃ planned, unitPair.plan = .ok planned ∧ ∀ m ∈ planned.moves,
        ∃ entrySq exitSq passage, m.IsReadBack entrySq exitSq passage := by
  have hplannable : ∀ m ∈ unitPair.moves, m.IsPlannable := by
    intro m hm
    rcases List.mem_pair.1 hm with rfl | rfl
    · constructor <;> norm_num [Move.unit, minPlannedLength]
    · constructor <;> norm_num [Move.unit, minPlannedLength]
  obtain ⟨planned, hplan, hlen, hread⟩ := plan_isReadBack unitPair hplannable
  refine ⟨hplannable, planned, hplan, fun m hm => ?_⟩
  obtain ⟨i, hi, rfl⟩ := List.mem_iff_getElem.1 hm
  exact ⟨_, _, (hread i (by omega) hi).2⟩

end Toolpath
