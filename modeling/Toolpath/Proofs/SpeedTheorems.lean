import Mathlib.Data.Real.Basic
import Toolpath.Proofs.ArrivalTheorems

/-!
# Speeds within the limits

Over the reals a planned move nowhere runs faster than it was limited to. The limits of a move
stand for what the machine can do (`Move.limits`), and this is what they come to:

* the speed is not above the programmed feed rate;
* along an arc, the turn takes no more than its share of the acceleration, and together with the
  acceleration that is left for changes of speed, at a right angle to it, no more than all.

A speed is good for a move if it meets both, `Move.Allows`. Every speed up to the limit is
(`Move.allows_limited`), and planning raises no limit, so every passage along a planned move runs
at such a speed (`keepsLimits_plan`).
-/

namespace Toolpath

open Scalar

namespace Move

/-! ## Limits -/

/-- A move at a feed rate above zero, along a line or an arc with a radius above zero. -/
structure IsProper (m : Move ℝ) : Prop where
  feedRate_pos : 0 < m.feedRate
  radius_pos : ∀ arc, m.shape = .arc arc → 0 < arc.radius

/-- A speed that the machine can run a move at under a greatest acceleration. -/
structure Allows (m : Move ℝ) (acceleration speed : ℝ) : Prop where
  nonneg : 0 ≤ speed
  feedRate : speed ≤ perSecond m.feedRate
  /-- Along an arc the acceleration is split between the turn and changes of speed. -/
  turn : ∀ arc, m.shape = .arc arc → speed ^ 2 / arc.radius ≤ maxTurnShare * acceleration ∧
    (speed ^ 2 / arc.radius) ^ 2 + m.maxAccel ^ 2 ≤ acceleration ^ 2

variable {m : Move ℝ} {acceleration speed : ℝ}

theorem IsProper.isDrawn (h : m.IsProper) : m.IsDrawn := by
  have hzero : (0.0 : ℝ) = 0 := by norm_num
  unfold IsDrawn
  cases hshape : m.shape with
  | line => trivial
  | arc arc =>
    show ¬ arc.radius < 0.0
    rw [hzero]
    exact not_lt.2 (h.radius_pos arc hshape).le

/-- The part of the acceleration that the turn of an arc takes, up to its greatest share. -/
noncomputable def turn (m : Move ℝ) (arc : Arc ℝ) (acceleration : ℝ) : ℝ :=
  min (perSecond m.feedRate ^ 2 / arc.radius) (maxTurnShare * acceleration)

theorem limits_line (hshape : m.shape = .line) (a : ℝ) :
    m.limits a = (perSecond m.feedRate ^ 2, a) := by
  unfold limits
  rw [hshape, sq]

theorem limits_arc {arc : Arc ℝ} (hshape : m.shape = .arc arc) (hradius : 0 < arc.radius) (a : ℝ) :
    m.limits a =
      (m.turn arc a * arc.radius, √(max (a ^ 2 - m.turn arc a ^ 2) 0)) := by
  have hzero : (0.0 : ℝ) = 0 := by norm_num
  unfold limits turn
  rw [hshape]
  dsimp only
  rw [← sq, greatest_eq_max, hzero, ← sq, ← sq]
  split_ifs with hcapped
  · rw [min_eq_right hcapped.le]
    rfl
  · rw [min_eq_left (not_lt.1 hcapped), div_mul_cancel₀ _ hradius.ne']
    rfl

/-- The limits of an arc come from one turn, within its share of the acceleration. -/
theorem exists_turn (acceleration : ℝ) {arc : Arc ℝ} (hshape : m.shape = .arc arc)
    (hradius : 0 < arc.radius) :
    ∃ turn ≤ maxTurnShare * acceleration,
      turn * arc.radius ≤ perSecond m.feedRate ^ 2 ∧
      (m.limits acceleration).1 = turn * arc.radius ∧
      (m.limits acceleration).2 = √(max (acceleration ^ 2 - turn ^ 2) 0) := by
  rw [limits_arc hshape hradius]
  refine ⟨m.turn arc acceleration, min_le_right _ _, ?_, rfl, rfl⟩
  rw [← le_div_iff₀ hradius]
  exact min_le_left _ _

/-- What a turn leaves of the acceleration adds up with it, at a right angle. -/
theorem sq_add_sq_le {turn x : ℝ} (hx : 0 ≤ x) (hle : x ≤ turn)
    (hturn : turn ≤ maxTurnShare * acceleration) (ha : 0 < acceleration) :
    x ^ 2 + √(max (acceleration ^ 2 - turn ^ 2) 0) ^ 2 ≤ acceleration ^ 2 := by
  have hleft := acceleration_left ha (hx.trans hle) hturn
  have hpos : 0 ≤ acceleration ^ 2 - turn ^ 2 := by
    rw [sq, sq]
    exact hleft.le
  rw [max_eq_left hpos, Real.sq_sqrt hpos]
  have hsq : x ^ 2 ≤ turn ^ 2 := pow_le_pow_left₀ hx hle 2
  linarith

theorem IsProper.limits_le (h : m.IsProper) :
    (m.limits acceleration).1 ≤ perSecond m.feedRate ^ 2 := by
  cases hshape : m.shape with
  | line => rw [limits_line hshape]
  | arc arc =>
    obtain ⟨_, -, hle, hpeak, -⟩ := exists_turn acceleration hshape (h.radius_pos arc hshape)
    exact hpeak.trans_le hle

/-- Every speed up to the limit of a move is one that the machine can run it at. -/
theorem IsProper.allows (h : m.IsProper) (ha : 0 < acceleration) (hspeed : 0 ≤ speed)
    (hle : speed ^ 2 ≤ (m.limited acceleration).peakSq) :
    (m.limited acceleration).Allows acceleration speed := by
  have hfeed : 0 ≤ perSecond m.feedRate := div_nonneg h.feedRate_pos.le (by norm_num)
  constructor
  case nonneg => exact hspeed
  case feedRate => exact (pow_le_pow_iff_left₀ hspeed hfeed two_ne_zero).1 (hle.trans h.limits_le)
  case turn =>
    intro arc hshape
    have hshape' : m.shape = .arc arc := hshape
    have hradius := h.radius_pos arc hshape'
    obtain ⟨turn, hturn, -, hpeak, hleft⟩ := exists_turn acceleration hshape' hradius
    have hcentripetal : speed ^ 2 / arc.radius ≤ turn := by
      rw [div_le_iff₀ hradius]
      exact hle.trans_eq hpeak
    refine ⟨hcentripetal.trans hturn, ?_⟩
    show (speed ^ 2 / arc.radius) ^ 2 + (m.limits acceleration).2 ^ 2 ≤ acceleration ^ 2
    rw [hleft]
    exact sq_add_sq_le (div_nonneg (sq_nonneg _) hradius.le) hcentripetal hturn ha

/-- What a speed has to meet does not depend on the plan. -/
theorem Allows.replanned {planned : Move ℝ} (h : m.Allows acceleration speed)
    (hplanned : m.Replanned planned) : planned.Allows acceleration speed := by
  rw [hplanned]
  exact ⟨h.nonneg, h.feedRate, h.turn⟩

/-! ## Plans -/

/-- Everywhere along a move there is a passage, at a speed that the machine can run it at. -/
def KeepsLimits (m : Move ℝ) (acceleration : ℝ) : Prop :=
  ∀ ratio ∈ Set.Icc (0 : ℝ) 1, ∃ passage, m.passageAt ratio = .ok passage ∧
    m.Allows acceleration passage.speed

end Move

/-- Nowhere along a planned move the speed is above a bound of its peak. -/
theorem speed_le_peak {c planned : Chain ℝ} (h : ∀ m ∈ c.moves, m.IsUnderway)
    (hplan : c.plan = .ok planned) {m : Move ℝ} (hm : m ∈ planned.moves) {limitSq : ℝ}
    (hlimit : 0 ≤ limitSq) (hpeak : m.peakSq ≤ limitSq) {ratio : ℝ}
    (hratio : ratio ∈ Set.Icc (0 : ℝ) 1) :
    ∃ passage, m.passageAt ratio = .ok passage ∧ 0 ≤ passage.speed ∧
      passage.speed ^ 2 ≤ limitSq := by
  rcases isReadBack_or_short h hplan hm with ⟨entrySq, exitSq, passage, hread⟩ | ⟨-, hrest⟩
  · refine ⟨passage ratio, hread.passageAt_eq ratio hratio, hread.speed_nonneg ratio hratio, ?_⟩
    rw [hread.speed_sq ratio hratio]
    exact (min_le_left _ _).trans hpeak
  · -- without a profile the move is passed at rest
    have hzero : (0.0 : ℝ) = 0 := by norm_num
    refine ⟨⟨0.0, 0.0⟩, ?_, hzero.ge, ?_⟩
    · rw [Move.passageAt, hrest]
      rfl
    · rwa [hzero, zero_pow two_ne_zero]

/-- Every chain of a path of proper moves is planned, and its moves keep within the limits. -/
theorem keepsLimits_plan {path : List (Move ℝ)} (hpath : ∀ m ∈ path, m.IsProper)
    {acceleration : ℝ} (ha : 0 < acceleration) :
    ∀ c ∈ Chain.ofPath path acceleration, ∃ planned, c.plan = .ok planned ∧
      List.Forall₂ (fun m n => m.Replanned n ∧ n.KeepsLimits acceleration) c.moves
        planned.moves := by
  intro c hc
  have hmoves : ∀ m ∈ c.moves, ∃ drawn ∈ path, drawn.limited acceleration = m := by
    intro m hm
    have hmem : m ∈ (Chain.ofPath path acceleration).flatMap Chain.moves :=
      List.mem_flatMap.2 ⟨c, hc, hm⟩
    rw [Chain.flatMap_ofPath] at hmem
    exact List.mem_map.1 hmem
  have hunderway : ∀ m ∈ c.moves, m.IsUnderway := by
    intro m hm
    obtain ⟨drawn, hdrawn, rfl⟩ := hmoves m hm
    have hproper := hpath drawn hdrawn
    exact Move.isUnderway_limited hproper.isDrawn hproper.feedRate_pos ha
  obtain ⟨planned, hplan⟩ := exists_plan c
  obtain ⟨hlen, hkept⟩ := replanned_plan hplan
  refine ⟨planned, hplan, List.forall₂_iff_get.2 ⟨hlen.symm, fun i hi hi' => ?_⟩⟩
  have hreplanned : c.moves[i].Replanned planned.moves[i] := hkept i hi hi'
  refine ⟨hreplanned, fun ratio hratio => ?_⟩
  -- planning only lowers the peak that the limits of the drawn move allow
  have hlimit := (hunderway _ (List.getElem_mem hi)).peak_pos.le
  have hpeak : planned.moves[i].peakSq ≤ c.moves[i].peakSq :=
    (peakSq_plan_le (fun m _ => le_refl m.peakSq) hplan).get hi hi'
  obtain ⟨passage, hpassage, hspeed, hle⟩ :=
    speed_le_peak hunderway hplan (List.getElem_mem hi') hlimit hpeak hratio
  obtain ⟨drawn, hdrawn, hdrawn'⟩ := hmoves _ (List.getElem_mem hi)
  rw [← hdrawn'] at hle hreplanned
  exact ⟨passage, hpassage, ((hpath drawn hdrawn).allows ha hspeed hle).replanned hreplanned⟩

/-- A line, and an arc of a quarter turn behind it. -/
noncomputable def lineAndArc : List (Move ℝ) :=
  [.make .line ⟨0, 0, 0⟩ ⟨1, 0, 0⟩ 600 1 .normal,
    .make (.arc ⟨.xy, ⟨1, 1⟩, -(Real.pi / 2), Real.pi / 2, 1⟩) ⟨1, 0, 0⟩ ⟨2, 1, 0⟩ 600 2 .normal]

/-- Both keep within the limits. -/
theorem keepsLimits_plan_lineAndArc : (∀ m ∈ lineAndArc, m.IsProper) ∧
    ∀ c ∈ Chain.ofPath lineAndArc 1000, ∃ planned, c.plan = .ok planned ∧
      List.Forall₂ (fun m n => m.Replanned n ∧ n.KeepsLimits 1000) c.moves planned.moves := by
  have hproper : ∀ m ∈ lineAndArc, m.IsProper := by
    intro m hm
    rcases List.mem_pair.1 hm with rfl | rfl
    · exact ⟨by norm_num [Move.make], nofun⟩
    · refine ⟨by norm_num [Move.make], ?_⟩
      rintro arc ⟨⟩
      exact one_pos
  exact ⟨hproper, keepsLimits_plan hproper (by norm_num)⟩

end Toolpath
