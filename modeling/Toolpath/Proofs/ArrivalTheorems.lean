import Toolpath.Proofs.OutcomeTheorems
import Toolpath.Proofs.PathTheorems
import Toolpath.Proofs.ReadbackTheorems
import Toolpath.Proofs.TimingTheorems

/-!
# Arriving on time

Over the reals a planned move is at its end when its duration is over (`Move.Arrives`). A move that
is too short for a profile takes no time at all. Any other one joins the speeds at its junctions
and is read back between them (`isReadBack_or_short`), for which all that its chain needs is moves
that can speed up.

* The moves of a program can, under accepted settings: a turn takes no more than its share of the
  acceleration (`Move.isUnderway_limited`, `isUnderway_unplanned`).
* So every planned move of a program arrives on time (`arrives_plan`), and takes time unless it is
  too short (`duration_pos_plan`).
-/

namespace Toolpath

open Scalar

/-! ## Limits -/

/-- A move that can speed up, and may. -/
structure Move.IsUnderway (m : Move ℝ) : Prop where
  isDrivable : m.IsDrivable
  peak_pos : 0 < m.peakSq

namespace Move

/-- The share of a turn leaves acceleration for changes of speed. -/
theorem acceleration_left {a turn : ℝ} (ha : 0 < a) (hturn : 0 ≤ turn)
    (hle : turn ≤ maxTurnShare * a) : 0 < a * a - turn * turn := by
  have hshare : (maxTurnShare : ℝ) = 4 / 5 := by norm_num [maxTurnShare]
  rw [hshare] at hle
  nlinarith

/-- A drawn move with a feed rate above zero can speed up. -/
theorem isUnderway_limited {m : Move ℝ} (hdrawn : m.IsDrawn) (hfeed : 0 < m.feedRate) {a : ℝ}
    (ha : 0 < a) : (m.limited a).IsUnderway := by
  have hzero : (0.0 : ℝ) = 0 := by norm_num
  have hsquared : 0 < perSecond m.feedRate * perSecond m.feedRate := by
    have hspeed : 0 < perSecond m.feedRate := div_pos hfeed (by norm_num)
    exact mul_pos hspeed hspeed
  have hlength : 0 ≤ m.courseLength := by
    have hnonneg := m.nonneg_courseLength
    rw [Nonneg, hzero] at hnonneg
    exact not_lt.1 hnonneg
  have hlimits : 0 < (m.limits a).1 ∧ 0 < (m.limits a).2 := by
    unfold limits
    unfold IsDrawn at hdrawn
    cases hshape : m.shape with
    | line => exact ⟨hsquared, ha⟩
    | arc arc =>
      rw [hshape] at hdrawn
      have hradius : 0 ≤ arc.radius := hzero ▸ not_lt.1 hdrawn
      have hcap : 0 < maxTurnShare * a := mul_pos (by norm_num [maxTurnShare]) ha
      have hleft : ∀ turn : ℝ, 0 ≤ turn → turn ≤ maxTurnShare * a →
          0 < Scalar.sqrt (greatest (a * a - turn * turn) 0.0) := by
        intro turn hturn hle
        rw [greatest_eq_max]
        exact Real.sqrt_pos.2 (lt_max_of_lt_left (acceleration_left ha hturn hle))
      dsimp only
      split_ifs with hturn
      · -- only a circle with a radius can ask for too much
        have hpos : 0 < arc.radius := by
          by_contra hle
          rw [le_antisymm (not_lt.1 hle) hradius, div_zero] at hturn
          exact lt_asymm hcap hturn
        exact ⟨mul_pos hcap hpos, hleft _ hcap.le le_rfl⟩
      · exact ⟨hsquared, hleft _ (div_nonneg hsquared.le hradius) (not_lt.1 hturn)⟩
  exact ⟨⟨hlimits.2, hlength, hlimits.1.le⟩, hlimits.1⟩

end Move

/-- Under accepted settings the moves of a program can speed up. -/
theorem isUnderway_unplanned {s : Settings ℝ} (h : s.validate = .ok ()) (p : Program) :
    ∀ c ∈ unplanned s p, ∀ m ∈ c.moves, m.IsUnderway := by
  have hzero : (0.0 : ℝ) = 0 := by norm_num
  have hvalid := Settings.validate_eq_ok.1 h
  intro c hc m hm
  obtain ⟨drawn, hdrawn, rfl⟩ := mem_unplanned hc hm
  have hpath : ∀ m ∈ (interpret s p).path, m.IsDrawn :=
    isDrawn_run (fun m hm => absurd hm (Array.not_mem_empty m)) p
  obtain ⟨-, hconnected⟩ := Interpretation.isConnected_run s Track.enter (.empty s.sampling) p
  have hfeed := hconnected.feedRate_pos hvalid drawn hdrawn
  have hpositive := hvalid.maxAcceleration.2
  rw [hzero] at hfeed hpositive
  exact Move.isUnderway_limited (hpath drawn hdrawn) hfeed hpositive

/-! ## Plans -/

/-- A move is at its end when its duration is over. -/
def Move.Arrives (m : Move ℝ) : Prop := m.timeAt 1 = m.profile.duration

namespace Move.IsReadBack

variable {m : Move ℝ} {entrySq exitSq : ℝ} {passage : ℝ → Passage ℝ}

theorem arrives (h : m.IsReadBack entrySq exitSq passage) : m.Arrives := by
  have hone : (1 : ℝ) ∈ Set.Icc (0 : ℝ) 1 := Set.right_mem_Icc.2 zero_le_one
  rw [Move.Arrives, ← Move.time_of_passageAt (h.passageAt_eq 1 hone), h.stop]

theorem duration_pos (h : m.IsReadBack entrySq exitSq passage) : 0 < m.profile.duration := by
  have hzero : (0 : ℝ) ∈ Set.Icc (0 : ℝ) 1 := Set.left_mem_Icc.2 zero_le_one
  have hone : (1 : ℝ) ∈ Set.Icc (0 : ℝ) 1 := Set.right_mem_Icc.2 zero_le_one
  have hlt : (passage 0).time < (passage 1).time := h.strictMonoOn hzero hone zero_lt_one
  rwa [h.start, h.stop] at hlt

end Move.IsReadBack

/-- A planned move that is long enough for a profile joins the speeds at its junctions. -/
theorem plan_of_long {c planned : Chain ℝ} (h : ∀ m ∈ c.moves, m.IsUnderway)
    (hplan : c.plan = .ok planned) {i : ℕ} (hi : i < planned.moves.length)
    (hback : i < (feasiblePeaks c.moves).length)
    (hlength : minPlannedLength < (feasiblePeaks c.moves)[i].length) :
    (feasiblePeaks c.moves)[i].Joins (junctionSq (feasiblePeaks c.moves) i)
        (junctionSq (feasiblePeaks c.moves) (i + 1)) ∧
      planned.moves[i] = (feasiblePeaks c.moves)[i].joined (junctionSq (feasiblePeaks c.moves) i)
        (junctionSq (feasiblePeaks c.moves) (i + 1)) := by
  have hdrivable : ∀ m ∈ c.moves, m.IsDrivable := fun m hm => (h m hm).isDrivable
  have hown : i < c.moves.length := by rwa [length_feasiblePeaks] at hback
  have hpos : 0 < c.moves[i].length := by
    rw [← (lowered_getElem c.moves hown hback).length]
    exact lt_trans (by norm_num [minPlannedLength]) hlength
  have hjoins := joins_junctionSq_of_drivable hdrivable hown hback hpos
    (h _ (List.getElem_mem hown)).peak_pos
  have hprofile := plan_junctionSq hdrivable hplan hback hi
  rw [hjoins.withProfile_eq hlength, Except.ok.injEq] at hprofile
  exact ⟨hjoins, hprofile.symm⟩

/-- One that is too short stays without a profile. -/
theorem plan_of_short {c planned : Chain ℝ} (h : ∀ m ∈ c.moves, m.IsUnderway)
    (hplan : c.plan = .ok planned) {i : ℕ} (hi : i < planned.moves.length)
    (hback : i < (feasiblePeaks c.moves).length)
    (hlength : (feasiblePeaks c.moves)[i].length ≤ minPlannedLength) :
    planned.moves[i] = { (feasiblePeaks c.moves)[i] with profile := .rest } := by
  have hprofile := plan_junctionSq (fun m hm => (h m hm).isDrivable) hplan hback hi
  rw [Move.withProfile_of_atRest (.inl hlength), Except.ok.injEq] at hprofile
  exact hprofile.symm

/-- A planned move is read back between the speeds at its ends, or it is too short for a
profile. -/
theorem isReadBack_or_short {c planned : Chain ℝ} (h : ∀ m ∈ c.moves, m.IsUnderway)
    (hplan : c.plan = .ok planned) {m : Move ℝ} (hm : m ∈ planned.moves) :
    (∃ entrySq exitSq passage, m.IsReadBack entrySq exitSq passage) ∨
      m.length ≤ minPlannedLength ∧ m.profile = .rest := by
  obtain ⟨hlen, -⟩ := replanned_plan hplan
  obtain ⟨i, hi, rfl⟩ := List.mem_iff_getElem.1 hm
  have hback : i < (feasiblePeaks c.moves).length := by
    rw [length_feasiblePeaks]
    omega
  rcases lt_or_ge minPlannedLength (feasiblePeaks c.moves)[i].length with hlong | hshort
  · obtain ⟨hjoins, hjoined⟩ := plan_of_long h hplan hi hback hlong
    rw [hjoined]
    exact .inl ⟨_, _, hjoins.isReadBack_joined⟩
  · rw [plan_of_short h hplan hi hback hshort]
    exact .inr ⟨hshort, rfl⟩

/-- Every move of a planned chain arrives on time. -/
theorem arrives_plan {c planned : Chain ℝ} (h : ∀ m ∈ c.moves, m.IsUnderway)
    (hplan : c.plan = .ok planned) : ∀ m ∈ planned.moves, m.Arrives := by
  intro m hm
  rcases isReadBack_or_short h hplan hm with ⟨_, _, _, hread⟩ | ⟨-, hrest⟩
  · exact hread.arrives
  · rw [Move.Arrives, Move.IsTimed.timeAt_of_nil (by rw [hrest]; rfl), hrest]
    rfl

/-- Every move of a planned chain that is long enough for a profile takes time. -/
theorem duration_pos_plan {c planned : Chain ℝ} (h : ∀ m ∈ c.moves, m.IsUnderway)
    (hplan : c.plan = .ok planned) :
    ∀ m ∈ planned.moves, minPlannedLength < m.length → 0 < m.profile.duration := by
  intro m hm hlength
  rcases isReadBack_or_short h hplan hm with ⟨_, _, _, hread⟩ | ⟨hshort, -⟩
  · exact hread.duration_pos
  · exact absurd hlength (not_lt.2 hshort)

end Toolpath
