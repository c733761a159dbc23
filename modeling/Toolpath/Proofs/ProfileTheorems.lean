import Mathlib.Tactic.LinearCombination
import Toolpath.Proofs.PeakTheorems

/-!
# Physically consistent profiles

Over the reals the profile of a planned move obeys the laws of motion under constant acceleration.

* Between two squared speeds that a move can join (`Move.Joins`), its crest lies where the ramps
  from both ends meet, or at the limit where that is lower: `Move.crestSq`. The triangle and the
  trapezoid of the planner are two cases of this one formula (`Move.Joins.crestAt_eq`).
* The bounds of the crest lie on the move and in order, so clamping them changes nothing
  (`Move.Joins.withProfile_eq`).
* Every phase is physical (`Phase.IsPhysical`), and the phases lead from the first squared speed
  to the second one, also where some of the three are missing.

The junction speeds of a chain can be joined because they are feasible, so all of this holds for
the profiles of a planned chain.
-/

namespace Toolpath

open Scalar

/-! ## The crest -/

/-- The greatest squared speed of a move between two squared speeds. -/
noncomputable def Move.crestSq (m : Move ℝ) (entrySq exitSq : ℝ) : ℝ :=
  min m.peakSq ((entrySq + exitSq + m.gain) / 2)

/-- Where a move between two squared speeds has reached its crest. -/
noncomputable def Move.accelStop (m : Move ℝ) (entrySq exitSq : ℝ) : ℝ :=
  (m.crestSq entrySq exitSq - entrySq) / (2 * m.maxAccel)

/-- Where a move between two squared speeds leaves its crest. -/
noncomputable def Move.decelStart (m : Move ℝ) (entrySq exitSq : ℝ) : ℝ :=
  m.length - (m.crestSq entrySq exitSq - exitSq) / (2 * m.maxAccel)

/-- A move with the profile between two squared speeds, cut at these places. -/
noncomputable def Move.joined (m : Move ℝ) (entrySq exitSq : ℝ) : Move ℝ :=
  m.withPhases entrySq exitSq (m.crestSq entrySq exitSq) (m.accelStop entrySq exitSq)
    (m.decelStart entrySq exitSq)

/-- A move can join two squared speeds: both are within its limit, and its gain leads from one to
the other. -/
structure Move.Joins (m : Move ℝ) (entrySq exitSq : ℝ) : Prop where
  accel_pos : 0 < m.maxAccel
  length_pos : 0 < m.length
  peak_pos : 0 < m.peakSq
  entry_nonneg : 0 ≤ entrySq
  entry_le : entrySq ≤ m.peakSq
  exit_nonneg : 0 ≤ exitSq
  exit_le : exitSq ≤ m.peakSq
  ramp : |exitSq - entrySq| ≤ m.gain

namespace Move.Joins

variable {m : Move ℝ} {entrySq exitSq : ℝ}

theorem gain_pos (h : m.Joins entrySq exitSq) : 0 < m.gain :=
  mul_pos (mul_pos two_pos h.accel_pos) h.length_pos

theorem crestSq_pos (h : m.Joins entrySq exitSq) : 0 < m.crestSq entrySq exitSq := by
  have hgain := h.gain_pos
  have hentry := h.entry_nonneg
  have hexit := h.exit_nonneg
  exact lt_min h.peak_pos (by linarith)

theorem entry_le_crestSq (h : m.Joins entrySq exitSq) : entrySq ≤ m.crestSq entrySq exitSq := by
  have hramp := abs_sub_le_iff.1 h.ramp
  exact le_min h.entry_le (by linarith)

theorem exit_le_crestSq (h : m.Joins entrySq exitSq) : exitSq ≤ m.crestSq entrySq exitSq := by
  have hramp := abs_sub_le_iff.1 h.ramp
  exact le_min h.exit_le (by linarith)

/-- The planner's triangle and its trapezoid both have the crest of the move. -/
theorem crestAt_eq (h : m.Joins entrySq exitSq) :
    m.crestAt entrySq exitSq = (m.crestSq entrySq exitSq, m.accelStop entrySq exitSq,
      m.decelStart entrySq exitSq) := by
  have ha := h.accel_pos
  have hne : m.maxAccel ≠ 0 := ha.ne'
  have hramp := abs_sub_le_iff.1 h.ramp
  have hgain : m.gain = 2 * m.maxAccel * m.length := rfl
  have htwo : (2.0 : ℝ) = 2 := by norm_num
  have hzero : (0.0 : ℝ) = 0 := by norm_num
  -- the ramps meet on the move, because its gain leads from one end to the other
  have hmeet : (exitSq / (2 * m.maxAccel) + m.length - entrySq / (2 * m.maxAccel)) / 2
      = (exitSq - entrySq + m.gain) / (4 * m.maxAccel) := by
    rw [hgain]
    field_simp
    ring
  have hmeetSq : 2 * m.maxAccel * (entrySq / (2 * m.maxAccel)
      + (exitSq - entrySq + m.gain) / (4 * m.maxAccel)) = (entrySq + exitSq + m.gain) / 2 := by
    field_simp
    ring
  have hnonneg : 0 ≤ (exitSq - entrySq + m.gain) / (4 * m.maxAccel) :=
    div_nonneg (by linarith) (by linarith)
  have hle : (exitSq - entrySq + m.gain) / (4 * m.maxAccel) ≤ m.length := by
    rw [div_le_iff₀ (by linarith)]
    linarith
  simp only [Move.crestAt, crest, htwo, hzero, hmeet, hmeetSq, hnonneg, hle, and_self, true_and]
  unfold Move.accelStop Move.decelStart Move.crestSq
  split_ifs with hbelow
  · -- the triangle
    rw [min_eq_right hbelow, Prod.mk.injEq, Prod.mk.injEq]
    refine ⟨rfl, ?_, ?_⟩
    · field_simp
      ring
    · rw [hgain]
      field_simp
      ring
  · -- the trapezoid
    rw [min_eq_left (not_le.1 hbelow).le, Prod.mk.injEq, Prod.mk.injEq]
    refine ⟨rfl, ?_, ?_⟩
    · field_simp
    · field_simp
      ring

/-! ## Clamping -/

theorem accelStop_nonneg (h : m.Joins entrySq exitSq) : 0 ≤ m.accelStop entrySq exitSq := by
  have hle := h.entry_le_crestSq
  have ha := h.accel_pos
  exact div_nonneg (by linarith) (by linarith)

theorem accelStop_le_decelStart (h : m.Joins entrySq exitSq) :
    m.accelStop entrySq exitSq ≤ m.decelStart entrySq exitSq := by
  have ha := h.accel_pos
  have hgain : m.gain = 2 * m.maxAccel * m.length := rfl
  have hcrest : m.crestSq entrySq exitSq ≤ (entrySq + exitSq + m.gain) / 2 := min_le_right _ _
  rw [Move.accelStop, Move.decelStart, le_sub_iff_add_le, ← add_div,
    div_le_iff₀ (by linarith)]
  linarith

theorem decelStart_le (h : m.Joins entrySq exitSq) : m.decelStart entrySq exitSq ≤ m.length := by
  have hle := h.exit_le_crestSq
  have ha := h.accel_pos
  exact sub_le_self _ (div_nonneg (by linarith) (by linarith))

theorem clamp_accelStop (h : m.Joins entrySq exitSq) :
    clampBetween (m.accelStop entrySq exitSq) 0.0 m.length
      = .ok (m.accelStop entrySq exitSq) := by
  have hzero : (0.0 : ℝ) = 0 := by norm_num
  have hle := h.accelStop_le_decelStart.trans h.decelStart_le
  rw [hzero, clampBetween_of_le h.length_pos.le, clamp_of_mem h.accelStop_nonneg hle]

theorem clamp_decelStart (h : m.Joins entrySq exitSq) :
    clampBetween (m.decelStart entrySq exitSq) (m.accelStop entrySq exitSq) m.length
      = .ok (m.decelStart entrySq exitSq) := by
  have hle := h.accelStop_le_decelStart.trans h.decelStart_le
  rw [clampBetween_of_le hle, clamp_of_mem h.accelStop_le_decelStart h.decelStart_le]

/-- The profile between two squared speeds, without clamps. -/
theorem withProfile_eq (h : m.Joins entrySq exitSq) (hlength : minPlannedLength < m.length) :
    m.withProfile entrySq exitSq = .ok (m.joined entrySq exitSq) := by
  have hmoving : ¬ m.AtRest := by
    have hzero : (0.0 : ℝ) = 0 := by norm_num
    rintro (hshort | hslow)
    · exact absurd hlength (not_lt.2 hshort)
    · rw [hzero] at hslow
      exact absurd h.accel_pos (not_lt.2 hslow)
  rw [Move.withProfile_eq_ok hmoving]
  refine ⟨m.accelStop entrySq exitSq, m.decelStart entrySq exitSq, ?_, ?_, ?_⟩
  · rw [h.crestAt_eq, h.clamp_accelStop]
  · rw [h.crestAt_eq, h.clamp_decelStart]
  · rw [h.crestAt_eq]
    rfl

end Move.Joins

/-! ## Phases -/

/-- The laws of motion in a phase: squared speeds change with the distance, at the acceleration or
not at all, and the distance is the mean speed times the duration. -/
structure Phase.IsPhysical (p : Phase ℝ) (maxAccel : ℝ) : Prop where
  accel : p.kind = .accel → p.toSq - p.fromSq = 2 * maxAccel * (p.stop - p.start)
  const : p.kind = .const → p.fromSq = p.topSq ∧ p.toSq = p.topSq
  decel : p.kind = .decel → p.fromSq - p.toSq = 2 * maxAccel * (p.stop - p.start)
  travel : p.length = (√p.fromSq + √p.toSq) / 2 * p.duration

/-- Over the time of a ramp the mean speed covers the distance of the ramp. -/
theorem mean_mul_rampTime {fromSq toSq : ℝ} (maxAccel : ℝ) (hfrom : 0 ≤ fromSq)
    (hto : 0 ≤ toSq) :
    (√fromSq + √toSq) / 2 * (|√fromSq - √toSq| / maxAccel) = |fromSq - toSq| / (2 * maxAccel) := by
  -- the sum of the speeds times their difference is the difference of their squares
  have hsum : 0 ≤ √fromSq + √toSq := add_nonneg (Real.sqrt_nonneg _) (Real.sqrt_nonneg _)
  have hsquares : (√fromSq + √toSq) * (√fromSq - √toSq) = fromSq - toSq := by
    calc (√fromSq + √toSq) * (√fromSq - √toSq)
        = √fromSq * √fromSq - √toSq * √toSq := by ring
      _ = fromSq - toSq := by rw [Real.mul_self_sqrt hfrom, Real.mul_self_sqrt hto]
  rw [← hsquares, abs_mul, abs_of_nonneg hsum]
  ring

section Timed

variable {start stop fromSq toSq topSq maxAccel : ℝ}

theorem isPhysical_accel (ha : 0 < maxAccel) (hfrom : 0 ≤ fromSq) (hle : fromSq ≤ topSq)
    (hramp : topSq - fromSq = 2 * maxAccel * (stop - start)) :
    (Phase.timed .accel start stop fromSq topSq topSq maxAccel).IsPhysical maxAccel where
  accel _ := hramp
  const h := nomatch h
  decel h := nomatch h
  travel := by
    show stop - start = (√fromSq + √topSq) / 2 * (|√fromSq - √topSq| / maxAccel)
    rw [mean_mul_rampTime maxAccel hfrom (hfrom.trans hle), abs_sub_comm,
      abs_of_nonneg (sub_nonneg.2 hle), hramp]
    field_simp

theorem isPhysical_decel (ha : 0 < maxAccel) (hto : 0 ≤ toSq) (hle : toSq ≤ topSq)
    (hramp : topSq - toSq = 2 * maxAccel * (stop - start)) :
    (Phase.timed .decel start stop topSq toSq topSq maxAccel).IsPhysical maxAccel where
  accel h := nomatch h
  const h := nomatch h
  decel _ := hramp
  travel := by
    show stop - start = (√topSq + √toSq) / 2 * (|√topSq - √toSq| / maxAccel)
    rw [mean_mul_rampTime maxAccel (hto.trans hle) hto, abs_of_nonneg (sub_nonneg.2 hle), hramp]
    field_simp

theorem isPhysical_const (htop : 0 < topSq) :
    (Phase.timed .const start stop topSq topSq topSq maxAccel).IsPhysical maxAccel where
  accel h := nomatch h
  const _ := ⟨rfl, rfl⟩
  decel h := nomatch h
  travel := by
    have hspeed : 0 < √topSq := Real.sqrt_pos.2 htop
    have hzero : (0.0 : ℝ) = 0 := by norm_num
    have hduration : (Phase.timed .const start stop topSq topSq topSq maxAccel).duration
        = (stop - start) / √topSq := by
      rw [hzero.symm] at hspeed
      exact if_pos hspeed
    show stop - start = (√topSq + √topSq) / 2
      * (Phase.timed .const start stop topSq topSq topSq maxAccel).duration
    rw [hduration]
    field_simp
    ring

end Timed

/-- The squared speed at which a move is entered. -/
def Move.entrySq? {α : Type} (m : Move α) : Option α := m.profile.phases.head?.map (·.fromSq)

/-- The squared speed at which a move is left. -/
def Move.exitSq? {α : Type} (m : Move α) : Option α := m.profile.phases.getLast?.map (·.toSq)

namespace Move.Joins

variable {m : Move ℝ} {entrySq exitSq : ℝ}

/-- The phases of a joined move: those of its three stretches that are not empty. -/
theorem phases_joined (h : m.Joins entrySq exitSq) :
    (m.joined entrySq exitSq).profile.phases =
      phasesBetween m (m.crestSq entrySq exitSq) (m.accelStop entrySq exitSq)
        (m.decelStart entrySq exitSq) entrySq exitSq := by
  show phasesBetween _ _ _ _ (Scalar.least _ _) (Scalar.least _ _) = _
  rw [least_eq_min, least_eq_min, min_eq_left h.entry_le_crestSq, min_eq_left h.exit_le_crestSq]

/-- All phases of a joined move are physical. -/
theorem isPhysical_joined (h : m.Joins entrySq exitSq) :
    ∀ p ∈ (m.joined entrySq exitSq).profile.phases, p.IsPhysical m.maxAccel := by
  have ha := h.accel_pos
  have hne : m.maxAccel ≠ 0 := ha.ne'
  have hzero : (0.0 : ℝ) = 0 := by norm_num
  intro p hp
  rw [h.phases_joined, phasesBetween, List.mem_append, List.mem_append] at hp
  rcases hp with (hp | hp) | hp
  · -- speeding up
    split_ifs at hp
    · rw [List.mem_singleton.1 hp]
      apply isPhysical_accel ha h.entry_nonneg h.entry_le_crestSq
      rw [hzero, Move.accelStop]
      field_simp
      ring
    · exact absurd hp List.not_mem_nil
  · -- keeping the speed
    split_ifs at hp
    · rw [List.mem_singleton.1 hp]
      exact isPhysical_const h.crestSq_pos
    · exact absurd hp List.not_mem_nil
  · -- slowing down
    split_ifs at hp
    · rw [List.mem_singleton.1 hp]
      apply isPhysical_decel ha h.exit_nonneg h.exit_le_crestSq
      rw [Move.decelStart]
      field_simp
      ring
    · exact absurd hp List.not_mem_nil

/-- A stretch that is empty leaves the crest at the speed of its end. -/
theorem crestSq_eq_entry (h : m.Joins entrySq exitSq) (hstop : ¬ 0 < m.accelStop entrySq exitSq) :
    m.crestSq entrySq exitSq = entrySq := by
  have ha := h.accel_pos
  by_contra hne
  have hlt := lt_of_le_of_ne h.entry_le_crestSq (Ne.symm hne)
  exact hstop (div_pos (by linarith) (by linarith))

theorem crestSq_eq_exit (h : m.Joins entrySq exitSq)
    (hstart : ¬ m.decelStart entrySq exitSq < m.length) :
    m.crestSq entrySq exitSq = exitSq := by
  have ha := h.accel_pos
  by_contra hne
  have hlt := lt_of_le_of_ne h.exit_le_crestSq (Ne.symm hne)
  exact hstart (sub_lt_self _ (div_pos (by linarith) (by linarith)))

/-- A joined move is entered at the first squared speed, whichever phase comes first. -/
theorem entrySq_joined (h : m.Joins entrySq exitSq) :
    (m.joined entrySq exitSq).entrySq? = some entrySq := by
  have hzero : (0.0 : ℝ) = 0 := by norm_num
  have hlength := h.length_pos
  rw [Move.entrySq?, h.phases_joined, phasesBetween, hzero]
  by_cases hstop : 0 < m.accelStop entrySq exitSq
  · rw [if_pos hstop]
    rfl
  · rw [if_neg hstop, h.crestSq_eq_entry hstop]
    by_cases hflat : m.accelStop entrySq exitSq < m.decelStart entrySq exitSq
    · rw [if_pos hflat]
      rfl
    · rw [if_neg hflat, if_pos (by linarith)]
      rfl

/-- A joined move is left at the second squared speed, whichever phase comes last. -/
theorem exitSq_joined (h : m.Joins entrySq exitSq) :
    (m.joined entrySq exitSq).exitSq? = some exitSq := by
  have hzero : (0.0 : ℝ) = 0 := by norm_num
  have hlength := h.length_pos
  rw [Move.exitSq?, h.phases_joined, phasesBetween, hzero]
  by_cases hstart : m.decelStart entrySq exitSq < m.length
  · rw [if_pos hstart, List.getLast?_append]
    rfl
  · rw [if_neg hstart, h.crestSq_eq_exit hstart, List.append_nil]
    by_cases hflat : m.accelStop entrySq exitSq < m.decelStart entrySq exitSq
    · rw [if_pos hflat, List.getLast?_append]
      rfl
    · rw [if_neg hflat, if_pos (by linarith)]
      rfl

end Move.Joins

/-! ## Planned chains -/

section Chains

variable {moves : List (Move ℝ)}

/-- A move that can be planned: it moves at all, at a positive limit. -/
structure Move.IsPlannable (m : Move ℝ) : Prop where
  length_gt : minPlannedLength < m.length
  accel_pos : 0 < m.maxAccel
  peak_pos : 0 < m.peakSq

theorem Move.IsPlannable.length_pos {m : Move ℝ} (h : m.IsPlannable) : 0 < m.length := by
  have hshort : (0 : ℝ) < minPlannedLength := by norm_num [minPlannedLength]
  exact hshort.trans h.length_gt

theorem Move.IsPlannable.isDrivable {m : Move ℝ} (h : m.IsPlannable) : m.IsDrivable :=
  ⟨h.accel_pos, h.length_pos.le, h.peak_pos.le⟩

/-- The passes over the peaks leave no move standing still. -/
theorem feasiblePeaks_pos (h : ∀ m ∈ moves, m.IsDrivable) {i : ℕ} (hi : i < moves.length)
    (hback : i < (feasiblePeaks moves).length) (hlength : 0 < moves[i].length)
    (hpeak : 0 < moves[i].peakSq) : 0 < (feasiblePeaks moves)[i].peakSq := by
  have hforth : i < (lowerPeaks none moves).length := by rwa [length_lowerPeaks]
  have hgain : 0 < moves[i].gain :=
    mul_pos (mul_pos two_pos (h _ (List.getElem_mem hi)).accel_pos) hlength
  -- at worst the move starts or ends at rest, and its gain is left
  have hbefore : 0 ≤ (peakBefore none (lowerPeaks none moves) i).getD 0 := by
    cases i with
    | zero => exact le_rfl
    | succ j =>
      have hj : j < (lowerPeaks none moves).length := by omega
      rw [peakBefore, List.getElem?_eq_getElem hj]
      exact (isDrivable_lowerPeaks le_rfl h _ (List.getElem_mem hj)).peak_nonneg
  have hafter : 0 ≤ (peakAfter (feasiblePeaks moves) i).getD 0 := by
    rw [peakAfter]
    rcases hnext : (feasiblePeaks moves)[i + 1]? with _ | next
    · exact le_rfl
    · exact (isDrivable_feasiblePeaks h _ (List.mem_of_getElem? hnext)).peak_nonneg
  rw [feasiblePeaks_peakSq h hi hforth hback, lowerPeaks_peakSq h hi hforth]
  exact lt_min (lt_min hpeak (by linarith)) (by linarith)

/-- Among drivable moves, one that moves at all can join the speeds at its junctions. -/
theorem joins_junctionSq_of_drivable (h : ∀ m ∈ moves, m.IsDrivable) {i : ℕ}
    (hi : i < moves.length) (hi' : i < (feasiblePeaks moves).length)
    (hlength : 0 < moves[i].length) (hpeak : 0 < moves[i].peakSq) :
    (feasiblePeaks moves)[i].Joins (junctionSq (feasiblePeaks moves) i)
      (junctionSq (feasiblePeaks moves) (i + 1)) := by
  have hfeasible := isDrivable_feasiblePeaks h
  have hlowered := lowered_getElem moves hi hi'
  have hfeasible_pos := feasiblePeaks_pos h hi hi' hlength hpeak
  have hnonneg := junctionSq_nonneg fun m hm => (hfeasible m hm).peak_nonneg
  exact {
    accel_pos := by rw [hlowered.maxAccel]; exact (h _ (List.getElem_mem hi)).accel_pos
    length_pos := by rw [hlowered.length]; exact hlength
    peak_pos := hfeasible_pos
    entry_nonneg := hnonneg i
    entry_le := by
      rw [junctionSq_entry hi' hfeasible_pos.le]
      exact min_le_right _ _
    exit_nonneg := hnonneg (i + 1)
    exit_le := by
      rw [junctionSq_exit hi' hfeasible_pos.le]
      exact min_le_right _ _
    ramp := by
      rw [hlowered.gain]
      exact abs_junctionSq_sub_le h hi }

/-- Every move of a chain can join the speeds at its junctions. -/
theorem joins_junctionSq (h : ∀ m ∈ moves, m.IsPlannable) {i : ℕ} (hi : i < moves.length)
    (hi' : i < (feasiblePeaks moves).length) :
    (feasiblePeaks moves)[i].Joins (junctionSq (feasiblePeaks moves) i)
      (junctionSq (feasiblePeaks moves) (i + 1)) := by
  have hmove := h _ (List.getElem_mem hi)
  exact joins_junctionSq_of_drivable (fun m hm => (h m hm).isDrivable) hi hi' hmove.length_pos
    hmove.peak_pos

/-- The laws of motion along a planned chain: in every phase of its moves, and from rest to rest
across its junctions. -/
structure Chain.IsPhysical (c : Chain ℝ) : Prop where
  phases : ∀ m ∈ c.moves, ∀ p ∈ m.profile.phases, p.IsPhysical m.maxAccel
  start : c.moves.head?.bind Move.entrySq? = some 0
  stop : c.moves.getLast?.bind Move.exitSq? = some 0
  junction : ∀ (i : ℕ) (_ : i + 1 < c.moves.length),
    ∃ speedSq, c.moves[i].exitSq? = some speedSq ∧ c.moves[i + 1].entrySq? = some speedSq

/-- The bounds of the crest pass through both clamps of the planner unchanged. -/
def Move.Unclamped (m : Move ℝ) (entrySq exitSq : ℝ) : Prop :=
  clampBetween (m.crestAt entrySq exitSq).2.1 0.0 m.length
      = .ok (m.crestAt entrySq exitSq).2.1 ∧
    clampBetween (m.crestAt entrySq exitSq).2.2 (m.crestAt entrySq exitSq).2.1 m.length
      = .ok (m.crestAt entrySq exitSq).2.2

theorem Move.Joins.unclamped {m : Move ℝ} {entrySq exitSq : ℝ} (h : m.Joins entrySq exitSq) :
    m.Unclamped entrySq exitSq := by
  rw [Move.Unclamped, h.crestAt_eq]
  exact ⟨h.clamp_accelStop, h.clamp_decelStart⟩

/-- Planning joins the speeds at the junctions of a chain, move by move. -/
theorem plan_joined {c planned : Chain ℝ} (h : ∀ m ∈ c.moves, m.IsPlannable)
    (hplan : c.plan = .ok planned) {i : ℕ} (hi : i < (feasiblePeaks c.moves).length)
    (hi' : i < planned.moves.length) :
    planned.moves[i] = (feasiblePeaks c.moves)[i].joined (junctionSq (feasiblePeaks c.moves) i)
      (junctionSq (feasiblePeaks c.moves) (i + 1)) := by
  have hi'' : i < c.moves.length := by rwa [length_feasiblePeaks] at hi
  have hlength : minPlannedLength < (feasiblePeaks c.moves)[i].length := by
    rw [(lowered_getElem c.moves hi'' hi).length]
    exact (h _ (List.getElem_mem hi'')).length_gt
  have hmove := plan_junctionSq (fun m hm => (h m hm).isDrivable) hplan hi hi'
  rw [(joins_junctionSq h hi'' hi).withProfile_eq hlength] at hmove
  exact (Except.ok.inj hmove).symm

/-- A planned chain obeys the laws of motion from rest to rest. -/
theorem isPhysical_of_plan {c planned : Chain ℝ} (hne : c.moves ≠ [])
    (h : ∀ m ∈ c.moves, m.IsPlannable) (hplan : c.plan = .ok planned) : planned.IsPhysical := by
  obtain ⟨hlen, -⟩ := replanned_plan hplan
  have hlen' := length_feasiblePeaks c.moves
  have hpos : 0 < c.moves.length := List.length_pos_iff.2 hne
  constructor
  case phases =>
    intro m hm p hp
    obtain ⟨i, hi, rfl⟩ := List.mem_iff_getElem.1 hm
    have hi' : i < (feasiblePeaks c.moves).length := by omega
    rw [plan_joined h hplan hi' hi] at hp ⊢
    exact (joins_junctionSq h (by omega) hi').isPhysical_joined p hp
  case start =>
    have hi : 0 < planned.moves.length := by omega
    have hi' : 0 < (feasiblePeaks c.moves).length := by omega
    rw [List.head?_eq_getElem?, List.getElem?_eq_getElem hi, Option.bind_some,
      plan_joined h hplan hi' hi, (joins_junctionSq h hpos hi').entrySq_joined, junctionSq_zero]
  case stop =>
    have hi : planned.moves.length - 1 < planned.moves.length := by omega
    have hi' : planned.moves.length - 1 < (feasiblePeaks c.moves).length := by omega
    have hend : planned.moves.length - 1 + 1 = (feasiblePeaks c.moves).length := by omega
    rw [List.getLast?_eq_getElem?, List.getElem?_eq_getElem hi, Option.bind_some,
      plan_joined h hplan hi' hi, (joins_junctionSq h (by omega) hi').exitSq_joined, hend,
      junctionSq_length]
  -- two neighbours are planned with the same junction speed
  case junction =>
    intro i hi
    have hi' : i + 1 < (feasiblePeaks c.moves).length := by omega
    have hprev : i < (feasiblePeaks c.moves).length := by omega
    refine ⟨junctionSq (feasiblePeaks c.moves) (i + 1), ?_, ?_⟩
    · rw [plan_joined h hplan hprev, (joins_junctionSq h (by omega) hprev).exitSq_joined]
    · rw [plan_joined h hplan hi', (joins_junctionSq h (by omega) hi').entrySq_joined]

/-- Planning a chain that is not empty gives physically consistent profiles. The moves keep their
lengths and accelerations, and no clamp changes a value on the way. -/
theorem plan_isPhysical (c : Chain ℝ) (hne : c.moves ≠ []) (h : ∀ m ∈ c.moves, m.IsPlannable) :
    ∃ planned, c.plan = .ok planned ∧ planned.moves.length = c.moves.length ∧
      planned.IsPhysical ∧
      (∀ (i : ℕ) (_ : i < c.moves.length) (_ : i < planned.moves.length),
        planned.moves[i].length = c.moves[i].length ∧
          planned.moves[i].maxAccel = c.moves[i].maxAccel) ∧
      ∀ (i : ℕ) (_ : i < (feasiblePeaks c.moves).length) (_ : i < planned.moves.length),
        (feasiblePeaks c.moves)[i].withProfile (junctionSq (feasiblePeaks c.moves) i)
            (junctionSq (feasiblePeaks c.moves) (i + 1)) = .ok planned.moves[i] ∧
          (feasiblePeaks c.moves)[i].Unclamped (junctionSq (feasiblePeaks c.moves) i)
            (junctionSq (feasiblePeaks c.moves) (i + 1)) := by
  obtain ⟨planned, hplan⟩ := exists_plan c
  obtain ⟨hlen, hkept⟩ := replanned_plan hplan
  have hdrivable : ∀ m ∈ c.moves, m.IsDrivable := fun m hm => (h m hm).isDrivable
  have hlen' := length_feasiblePeaks c.moves
  refine ⟨planned, hplan, hlen, isPhysical_of_plan hne h hplan, ?_, ?_⟩
  · intro i hi hi'
    have hmove : c.moves[i].Replanned planned.moves[i] := hkept i hi hi'
    rw [hmove]
    exact ⟨rfl, rfl⟩
  · intro i hi hi'
    exact ⟨plan_junctionSq hdrivable hplan hi hi', (joins_junctionSq h (by omega) hi).unclamped⟩

/-- Two unit moves, of which the second has the lower limit, are planned to move physically. -/
theorem plan_isPhysical_pair :
    (∀ m ∈ unitPair.moves, m.IsPlannable) ∧
      ∃ planned, unitPair.plan = .ok planned ∧ planned.IsPhysical := by
  have hplannable : ∀ m ∈ unitPair.moves, m.IsPlannable := by
    intro m hm
    rcases List.mem_pair.1 hm with rfl | rfl
    · constructor <;> norm_num [Move.unit, minPlannedLength]
    · constructor <;> norm_num [Move.unit, minPlannedLength]
  obtain ⟨planned, hplan, -, hphysical, -⟩ :=
    plan_isPhysical unitPair (List.cons_ne_nil _ _) hplannable
  exact ⟨hplannable, planned, hplan, hphysical⟩

end Chains

end Toolpath
