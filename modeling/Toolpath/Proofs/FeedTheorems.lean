import Mathlib.Data.Real.Basic
import Toolpath.Proofs.ComparisonTheorems
import Toolpath.Proofs.SpeedTheorems

/-!
# Stronger machines and faster feeds

What a greater acceleration and a faster feed rate do to the limits of a move, and so to the time it
takes.

* A greater acceleration lowers no limit (`Move.IsProper.isRaised_limited`): a path falls into the
  same chains, no move of which is passed at a lower speed anywhere or takes more time
  (`plan_stronger`).
* A faster feed rate raises the limit of the speed, but along an arc the turn then takes more of the
  acceleration and leaves less for changes of speed. An arc that is too short to reach its limit can
  take longer at a faster feed (`plan_shortArc`).
* At least three fifths of the acceleration are left, so no move takes more than `√(5 / 3)` times
  as long. None takes longer at all where only lines are sped up, and arcs that have the whole
  share of the turn already (`plan_faster`).
-/

namespace Toolpath

open Scalar

namespace Move

variable {m n : Move ℝ} {a a' : ℝ}

/-! ## Acceleration -/

/-- A turn takes no more than four fifths of the acceleration. -/
theorem IsProper.turn_mem (h : m.IsProper) {arc : Arc ℝ} (hshape : m.shape = .arc arc)
    (ha : 0 < a) : 0 ≤ m.turn arc a ∧ m.turn arc a ≤ 4 / 5 * a := by
  have hshare : (maxTurnShare : ℝ) = 4 / 5 := by norm_num [maxTurnShare]
  rw [turn, hshare]
  exact ⟨le_min (div_nonneg (sq_nonneg _) (h.radius_pos arc hshape).le) (by linarith),
    min_le_right _ _⟩

theorem share_mono (hle : a ≤ a') : maxTurnShare * a ≤ maxTurnShare * a' :=
  mul_le_mul_of_nonneg_left hle (by norm_num [maxTurnShare])

/-- A greater acceleration leaves more to changes of speed. -/
theorem IsProper.left_mono (h : m.IsProper) {arc : Arc ℝ} (hshape : m.shape = .arc arc)
    (ha : 0 < a) (hle : a ≤ a') : a ^ 2 - m.turn arc a ^ 2 ≤ a' ^ 2 - m.turn arc a' ^ 2 := by
  obtain ⟨hturn', hcap'⟩ := h.turn_mem hshape (ha.trans_le hle)
  -- the turn is the same under both, or the lesser acceleration gives it the whole share
  rcases le_total (perSecond m.feedRate ^ 2 / arc.radius) (maxTurnShare * a) with hslow | hfast
  · have hsame : m.turn arc a' = m.turn arc a := by
      rw [turn, turn, min_eq_left hslow, min_eq_left (hslow.trans (share_mono hle))]
    rw [hsame]
    nlinarith
  · have hwhole : m.turn arc a = 4 / 5 * a := by
      rw [turn, min_eq_right hfast]
      norm_num [maxTurnShare]
    rw [hwhole]
    nlinarith

/-- A stronger machine has the greater limits. -/
theorem IsProper.isRaised_limited (h : m.IsProper) (ha : 0 < a) (hle : a ≤ a') :
    (m.limited a).IsRaised 1 (m.limited a') := by
  have hlimits : (m.limits a).1 ≤ (m.limits a').1 ∧ (m.limits a).2 ≤ (m.limits a').2 := by
    cases hshape : m.shape with
    | line =>
      rw [limits_line hshape, limits_line hshape]
      exact ⟨le_rfl, hle⟩
    | arc arc =>
      have hradius := h.radius_pos arc hshape
      rw [limits_arc hshape hradius, limits_arc hshape hradius]
      exact ⟨mul_le_mul_of_nonneg_right (min_le_min le_rfl (share_mono hle)) hradius.le,
        Real.sqrt_le_sqrt (max_le_max (h.left_mono hshape ha hle) le_rfl)⟩
  constructor
  case length_eq => rfl
  case peakSq_le =>
    rw [one_mul]
    exact hlimits.1
  case maxAccel_le =>
    rw [one_mul]
    exact hlimits.2

/-! ## Feed rates -/

/-- One move is another at a feed rate that is not lower. -/
structure IsSpedUp (m n : Move ℝ) : Prop where
  eq : n = { m with feedRate := n.feedRate }
  feedRate_le : m.feedRate ≤ n.feedRate

/-- The turn of a move, if it makes one, takes its whole share of the acceleration. -/
def TurnsFully (m : Move ℝ) (acceleration : ℝ) : Prop :=
  ∀ arc, m.shape = .arc arc →
    maxTurnShare * acceleration ≤ perSecond m.feedRate ^ 2 / arc.radius

theorem IsSpedUp.shape (h : m.IsSpedUp n) : n.shape = m.shape := by
  rw [h.eq]

theorem IsSpedUp.courseLength (h : m.IsSpedUp n) : n.courseLength = m.courseLength := by
  rw [h.eq]
  rfl

theorem IsSpedUp.isProper (h : m.IsSpedUp n) (hm : m.IsProper) : n.IsProper :=
  ⟨hm.feedRate_pos.trans_le h.feedRate_le, fun arc harc => hm.radius_pos arc (h.shape ▸ harc)⟩

theorem IsSpedUp.speedSq_le (h : m.IsSpedUp n) (hm : m.IsProper) :
    perSecond m.feedRate ^ 2 ≤ perSecond n.feedRate ^ 2 := by
  have hsixty : (0 : ℝ) ≤ 60.0 := by norm_num
  exact pow_le_pow_left₀ (div_nonneg hm.feedRate_pos.le hsixty)
    (div_le_div_of_nonneg_right h.feedRate_le hsixty) 2

/-- A turn leaves at least three fifths of the acceleration for changes of speed. -/
theorem IsProper.accel_mem (h : m.IsProper) (ha : 0 < a) :
    3 / 5 * a ≤ (m.limits a).2 ∧ (m.limits a).2 ≤ a := by
  cases hshape : m.shape with
  | line =>
    rw [limits_line hshape]
    exact ⟨by linarith, le_rfl⟩
  | arc arc =>
    obtain ⟨hturn, hcap⟩ := h.turn_mem hshape ha
    rw [limits_arc hshape (h.radius_pos arc hshape)]
    constructor
    · apply Real.le_sqrt_of_sq_le
      exact le_max_of_le_left (by nlinarith)
    · rw [Real.sqrt_le_left ha.le]
      exact max_le (by nlinarith) (sq_nonneg a)

/-- A faster feed raises the limit of the speed. -/
theorem IsSpedUp.peakSq_le (h : m.IsSpedUp n) (hm : m.IsProper) (a : ℝ) :
    (m.limits a).1 ≤ (n.limits a).1 := by
  have hshape := h.shape
  cases hline : m.shape with
  | line =>
    rw [hline] at hshape
    rw [limits_line hline, limits_line hshape]
    exact h.speedSq_le hm
  | arc arc =>
    rw [hline] at hshape
    have hradius := hm.radius_pos arc hline
    rw [limits_arc hline hradius, limits_arc hshape hradius]
    exact mul_le_mul_of_nonneg_right
      (min_le_min (div_le_div_of_nonneg_right (h.speedSq_le hm) hradius.le) le_rfl) hradius.le

/-- However much a feed rate is raised, the limits keep three fifths of what they were. -/
theorem IsSpedUp.isRaised_limited (h : m.IsSpedUp n) (hm : m.IsProper) (ha : 0 < a) :
    (m.limited a).IsRaised (3 / 5) (n.limited a) := by
  have hpeak := h.peakSq_le hm a
  have hpos : 0 < (m.limits a).1 := (isUnderway_limited hm.isDrawn hm.feedRate_pos ha).peak_pos
  obtain ⟨-, hmost⟩ := hm.accel_mem ha
  obtain ⟨hleast, -⟩ := (h.isProper hm).accel_mem ha
  constructor
  case length_eq => exact h.courseLength
  case peakSq_le =>
    show 3 / 5 * (m.limits a).1 ≤ (n.limits a).1
    linarith
  case maxAccel_le =>
    show 3 / 5 * (m.limits a).2 ≤ (n.limits a).2
    linarith

/-- Where only lines and full turns are sped up, no limit is lowered. -/
theorem IsSpedUp.isRaised_limited_of_turnsFully (h : m.IsSpedUp n) (hm : m.IsProper)
    (hfully : m.feedRate < n.feedRate → m.TurnsFully a) :
    (m.limited a).IsRaised 1 (n.limited a) := by
  have hpeak := h.peakSq_le hm a
  -- the turn takes its greatest share at the lower speed already, so a higher one takes no more
  have haccel : (n.limits a).2 = (m.limits a).2 := by
    rcases h.feedRate_le.eq_or_lt with hsame | hlt
    · rw [h.eq, ← hsame]
    have hshape := h.shape
    cases hline : m.shape with
    | line =>
      rw [hline] at hshape
      rw [limits_line hline, limits_line hshape]
    | arc arc =>
      rw [hline] at hshape
      have hradius := hm.radius_pos arc hline
      have hslow := hfully hlt arc hline
      have hfast : maxTurnShare * a ≤ perSecond n.feedRate ^ 2 / arc.radius :=
        hslow.trans (div_le_div_of_nonneg_right (h.speedSq_le hm) hradius.le)
      rw [limits_arc hline hradius, limits_arc hshape hradius, turn, turn, min_eq_right hslow,
        min_eq_right hfast]
  constructor
  case length_eq => exact h.courseLength
  case peakSq_le =>
    rw [one_mul]
    exact hpeak
  case maxAccel_le =>
    rw [one_mul]
    exact haccel.ge

end Move

/-! ## Chains -/

/-- Moves that are sped up stay proper. -/
theorem isProper_of_isSpedUp {path copy : List (Move ℝ)} (h : List.Forall₂ Move.IsSpedUp path copy)
    (hpath : ∀ m ∈ path, m.IsProper) : ∀ n ∈ copy, n.IsProper := by
  induction h with
  | nil => exact hpath
  | cons h _ ih =>
    obtain ⟨hm, hpath⟩ := List.forall_mem_cons.1 hpath
    exact List.forall_mem_cons.2 ⟨h.isProper hm, ih hpath⟩

/-- A chain of proper moves can speed up. -/
theorem isUnderway_of_isProper {moves : List (Move ℝ)} (h : ∀ m ∈ moves, m.IsProper) {a : ℝ}
    (ha : 0 < a) : ∀ m ∈ (Chain.limited moves a).moves, m.IsUnderway := by
  intro m hm
  obtain ⟨drawn, hdrawn, rfl⟩ := List.mem_map.1 hm
  exact Move.isUnderway_limited (h drawn hdrawn).isDrawn (h drawn hdrawn).feedRate_pos ha

/-- Where the limits of proper moves are raised, their plan outruns the other one. -/
theorem isOutrun_limited {share : ℝ} (hshare : 0 ≤ share) {moves copy : List (Move ℝ)} {a a' : ℝ}
    (ha : 0 < a) (ha' : 0 < a') (hmoves : ∀ m ∈ moves, m.IsProper) (hcopy : ∀ n ∈ copy, n.IsProper)
    (h : List.Forall₂ (fun m n => (m.limited a).IsRaised share (n.limited a')) moves copy)
    {planned planned' : Chain ℝ} (hplan : (Chain.limited moves a).plan = .ok planned)
    (hplan' : (Chain.limited copy a').plan = .ok planned') :
    List.Forall₂ (Move.IsOutrun share) planned.moves planned'.moves :=
  isOutrun_plan hshare (List.forall₂_map_left_iff.2 (List.forall₂_map_right_iff.2 h))
    (isUnderway_of_isProper hmoves ha) (isUnderway_of_isProper hcopy ha') hplan hplan'

/-- The second of two planned moves is nowhere passed at a lower speed and takes no more time. -/
structure Move.IsNoSlower (m n : Move ℝ) : Prop where
  speed_le : ∀ ratio ∈ Set.Icc (0 : ℝ) 1, ∃ passage passage', m.passageAt ratio = .ok passage ∧
    n.passageAt ratio = .ok passage' ∧ passage.speed ≤ passage'.speed
  duration_le : n.profile.duration ≤ m.profile.duration

theorem Move.IsOutrun.isNoSlower {m n : Move ℝ} (h : m.IsOutrun 1 n) : m.IsNoSlower n := by
  constructor
  case speed_le =>
    intro ratio hratio
    obtain ⟨passage, passage', hpassage, hpassage', hle⟩ := h.speed_le ratio hratio
    rw [Real.sqrt_one, one_mul] at hle
    exact ⟨passage, passage', hpassage, hpassage', hle⟩
  case duration_le =>
    have hle := h.duration_le
    rwa [Real.sqrt_one, one_mul] at hle

/-- A short arc with a third of a unit for its radius. -/
noncomputable def shortArc (feedRate : ℝ) : Move ℝ :=
  .make (.arc ⟨.xy, ⟨0, 0⟩, 0, 1 / 3, 1 / 3⟩) ⟨1 / 3, 0, 0⟩
    ⟨Real.cos (1 / 3) / 3, Real.sin (1 / 3) / 3, 0⟩ feedRate 1 .normal

theorem isProper_shortArc {feedRate : ℝ} (h : 0 < feedRate) : (shortArc feedRate).IsProper := by
  refine ⟨h, ?_⟩
  rintro arc ⟨⟩
  norm_num

/-- The arc, and a line behind it. -/
noncomputable def arcAndLine (feedRate lineRate : ℝ) : List (Move ℝ) :=
  [shortArc feedRate, .make .line ⟨Real.cos (1 / 3) / 3, Real.sin (1 / 3) / 3, 0⟩ ⟨0, 1, 0⟩
    lineRate 2 .normal]

theorem isProper_arcAndLine {feedRate lineRate : ℝ} (h : 0 < feedRate) (hline : 0 < lineRate) :
    ∀ m ∈ arcAndLine feedRate lineRate, m.IsProper := by
  intro m hm
  rcases List.mem_pair.1 hm with rfl | rfl
  · exact isProper_shortArc h
  · exact ⟨hline, nofun⟩

/-- A stronger machine splits a path into the same chains, and is nowhere slower on any of them. -/
theorem plan_stronger {path : List (Move ℝ)} (hpath : ∀ m ∈ path, m.IsProper) {a a' : ℝ}
    (ha : 0 < a) (hle : a ≤ a') :
    ∃ groups : List (List (Move ℝ)), groups.flatten = path ∧
      Chain.ofPath path a = groups.map (Chain.limited · a) ∧
      Chain.ofPath path a' = groups.map (Chain.limited · a') ∧
      ∀ moves ∈ groups, ∃ planned planned', (Chain.limited moves a).plan = .ok planned ∧
        (Chain.limited moves a').plan = .ok planned' ∧
        List.Forall₂ Move.IsNoSlower planned.moves planned'.moves := by
  refine ⟨path.splitBy Move.flowsInto, List.flatten_splitBy _ _, Chain.ofPath_eq_map _ _,
    Chain.ofPath_eq_map _ _, fun moves hmoves => ?_⟩
  have hproper : ∀ m ∈ moves, m.IsProper := fun m hm =>
    hpath m (mem_of_mem_splitBy hmoves hm)
  obtain ⟨planned, hplan⟩ := exists_plan (Chain.limited moves a)
  obtain ⟨planned', hplan'⟩ := exists_plan (Chain.limited moves a')
  have hraised : List.Forall₂ (fun m n => (Move.limited m a).IsRaised 1 (Move.limited n a')) moves
      moves := List.forall₂_same.2 fun m hm => (hproper m hm).isRaised_limited ha hle
  have houtrun := isOutrun_limited zero_le_one ha (ha.trans_le hle) hproper hproper hraised hplan
    hplan'
  exact ⟨planned, planned', hplan, hplan', houtrun.imp fun _ _ => Move.IsOutrun.isNoSlower⟩

/-- A short arc and a line under twice the acceleration. -/
theorem plan_stronger_arcAndLine : (∀ m ∈ arcAndLine 60 120, m.IsProper) ∧ (0 : ℝ) < 5 ∧
    (5 : ℝ) ≤ 10 ∧
    ∃ groups : List (List (Move ℝ)), groups.flatten = arcAndLine 60 120 ∧
      Chain.ofPath (arcAndLine 60 120) 5 = groups.map (Chain.limited · 5) ∧
      Chain.ofPath (arcAndLine 60 120) 10 = groups.map (Chain.limited · 10) ∧
      ∀ moves ∈ groups, ∃ planned planned', (Chain.limited moves 5).plan = .ok planned ∧
        (Chain.limited moves 10).plan = .ok planned' ∧
        List.Forall₂ Move.IsNoSlower planned.moves planned'.moves := by
  have hproper : ∀ m ∈ arcAndLine 60 120, m.IsProper :=
    isProper_arcAndLine (by norm_num) (by norm_num)
  exact ⟨hproper, by norm_num, by norm_num, plan_stronger hproper (by norm_num) (by norm_num)⟩

/-- The plans of a chain and of its copy that is sped up: how long the moves of the copy take. -/
structure ArePaced (acceleration : ℝ) (moves copy : List (Move ℝ)) (planned planned' : Chain ℝ) :
    Prop where
  plan : (Chain.limited moves acceleration).plan = .ok planned
  plan_copy : (Chain.limited copy acceleration).plan = .ok planned'
  duration_le : List.Forall₂ (fun m n => n.profile.duration ≤ √(5 / 3) * m.profile.duration)
    planned.moves planned'.moves
  /-- Where only lines and full turns are sped up, no move takes longer. -/
  duration_le_of_turnsFully :
    List.Forall₂ (fun m n => m.feedRate < n.feedRate → m.TurnsFully acceleration) moves copy →
    List.Forall₂ (fun m n => n.profile.duration ≤ m.profile.duration) planned.moves planned'.moves

theorem exists_arePaced {moves copy : List (Move ℝ)} (hmoves : ∀ m ∈ moves, m.IsProper)
    (h : List.Forall₂ Move.IsSpedUp moves copy) {a : ℝ} (ha : 0 < a) :
    ∃ planned planned', ArePaced a moves copy planned planned' := by
  have hcopy := isProper_of_isSpedUp h hmoves
  have hboth := (List.forall₂_and_left moves copy).2 ⟨hmoves, h⟩
  obtain ⟨planned, hplan⟩ := exists_plan (Chain.limited moves a)
  obtain ⟨planned', hplan'⟩ := exists_plan (Chain.limited copy a)
  refine ⟨planned, planned', hplan, hplan', ?_, fun hfully => ?_⟩
  · have hraised : List.Forall₂ (fun m n => (Move.limited m a).IsRaised (3 / 5) (Move.limited n a))
        moves copy := hboth.imp fun m n hmn => hmn.2.isRaised_limited hmn.1 ha
    have houtrun := isOutrun_limited (by norm_num) ha ha hmoves hcopy hraised hplan hplan'
    have hinverse : √((5 : ℝ) / 3) * √(3 / 5) = 1 := by
      rw [← Real.sqrt_mul (by norm_num)]
      norm_num
    refine houtrun.imp fun m n hmn => ?_
    calc n.profile.duration = √(5 / 3) * (√(3 / 5) * n.profile.duration) := by
          rw [← mul_assoc, hinverse, one_mul]
      _ ≤ √(5 / 3) * m.profile.duration :=
          mul_le_mul_of_nonneg_left hmn.duration_le (Real.sqrt_nonneg _)
  · have hraised : List.Forall₂ (fun m n => (Move.limited m a).IsRaised 1 (Move.limited n a))
        moves copy := .mp (fun m n hfull hmn => hmn.2.isRaised_limited_of_turnsFully hmn.1 hfull)
      hfully hboth
    have houtrun := isOutrun_limited zero_le_one ha ha hmoves hcopy hraised hplan hplan'
    exact houtrun.imp fun m n hmn => hmn.isNoSlower.duration_le

/-- Faster feeds leave the chains of a path as they are and make no move take more than `√(5 / 3)`
times as long; where only lines and full turns are sped up, none takes longer at all. -/
theorem plan_faster {path copy : List (Move ℝ)} (hpath : ∀ m ∈ path, m.IsProper)
    (hcopy : List.Forall₂ Move.IsSpedUp path copy) {a : ℝ} (ha : 0 < a) :
    ∃ groups copies : List (List (Move ℝ)), groups.flatten = path ∧ copies.flatten = copy ∧
      Chain.ofPath path a = groups.map (Chain.limited · a) ∧
      Chain.ofPath copy a = copies.map (Chain.limited · a) ∧
      List.Forall₂ (fun moves faster => List.Forall₂ Move.IsSpedUp moves faster ∧
        ∃ planned planned', ArePaced a moves faster planned planned') groups copies := by
  have hflow : ∀ m n m' n' : Move ℝ, m.IsProper ∧ m.IsSpedUp m' → n.IsProper ∧ n.IsSpedUp n' →
      m.flowsInto n = m'.flowsInto n' := by
    rintro m n m' n' ⟨-, hm⟩ ⟨-, hn⟩
    rw [hm.eq, hn.eq]
    rfl
  have hgroups := forall₂_splitBy hflow ((List.forall₂_and_left path copy).2 ⟨hpath, hcopy⟩)
  refine ⟨path.splitBy Move.flowsInto, copy.splitBy Move.flowsInto, List.flatten_splitBy _ _,
    List.flatten_splitBy _ _, Chain.ofPath_eq_map _ _, Chain.ofPath_eq_map _ _, ?_⟩
  refine hgroups.imp fun moves moves' h => ?_
  obtain ⟨hproper, hspedUp⟩ := (List.forall₂_and_left moves moves').1 h
  exact ⟨hspedUp, exists_arePaced hproper hspedUp ha⟩

/-- A short arc, and a line behind it that is sped up. -/
theorem plan_faster_arcAndLine : (∀ m ∈ arcAndLine 60 60, m.IsProper) ∧
    List.Forall₂ Move.IsSpedUp (arcAndLine 60 60) (arcAndLine 60 120) ∧
    ∃ groups copies : List (List (Move ℝ)), groups.flatten = arcAndLine 60 60 ∧
      copies.flatten = arcAndLine 60 120 ∧
      List.Forall₂ (fun moves faster => ∃ planned planned',
        ArePaced 5 moves faster planned planned') groups copies := by
  have hproper : ∀ m ∈ arcAndLine 60 60, m.IsProper :=
    isProper_arcAndLine (by norm_num) (by norm_num)
  have hspedUp : List.Forall₂ Move.IsSpedUp (arcAndLine 60 60) (arcAndLine 60 120) :=
    .cons ⟨rfl, le_rfl⟩ (.cons ⟨rfl, by norm_num [Move.make]⟩ .nil)
  obtain ⟨groups, copies, hgroups, hcopies, -, -, hplans⟩ :=
    plan_faster hproper hspedUp (show (0 : ℝ) < 5 by norm_num)
  exact ⟨hproper, hspedUp, groups, copies, hgroups, hcopies, hplans.imp fun _ _ h => h.2⟩

/-! ## A short arc -/

/-- From rest to rest, a move that does not reach its limit speeds up over one half of its way and
slows down over the other. -/
theorem Move.Joins.duration_from_rest {m : Move ℝ} (h : m.Joins 0 0)
    (hlow : m.maxAccel * m.length ≤ m.peakSq) :
    (m.joined 0 0).profile.duration = 2 * √(m.length / m.maxAccel) := by
  have hzero : (0.0 : ℝ) = 0 := by norm_num
  have ha := h.accel_pos
  have hlength := h.length_pos
  have hcrest : m.crestSq 0 0 = m.maxAccel * m.length := by
    have hhalf : (0 + 0 + m.gain) / 2 = m.maxAccel * m.length := by
      rw [Move.gain]
      ring
    rw [Move.crestSq, hhalf, min_eq_right hlow]
  -- the move gains speed on one half of its length and loses it on the other
  have hmiddle : m.accelStop 0 0 = m.length / 2 := by
    rw [Move.accelStop, hcrest]
    field_simp
    ring
  have hmiddle' : m.decelStart 0 0 = m.length / 2 := by
    rw [Move.decelStart, hcrest]
    field_simp
    ring
  have hroot : √(m.maxAccel * m.length) / m.maxAccel = √(m.length / m.maxAccel) := by
    rw [show m.length / m.maxAccel = m.maxAccel * m.length / m.maxAccel ^ 2 by field_simp,
      Real.sqrt_div' _ (sq_nonneg _), Real.sqrt_sq ha.le]
  rw [duration_joined, h.phases_joined, phasesBetween, hcrest, hmiddle, hmiddle', hzero,
    if_pos (by linarith), if_neg (lt_irrefl _), if_pos (by linarith)]
  show |√0 - √(m.maxAccel * m.length)| / m.maxAccel +
    (|√(m.maxAccel * m.length) - √0| / m.maxAccel + 0) = _
  rw [Real.sqrt_zero, zero_sub, abs_neg, sub_zero, abs_of_nonneg (Real.sqrt_nonneg _), hroot]
  ring

/-- Alone in its chain, a long enough move is planned from rest to rest. -/
theorem plan_singleton {m : Move ℝ} (hm : m.IsUnderway) (hlength : minPlannedLength < m.length)
    (hlow : m.maxAccel * m.length ≤ m.peakSq) :
    ∃ planned, Chain.plan ⟨[m]⟩ = .ok ⟨[planned]⟩ ∧
      planned.profile.duration = 2 * √(m.length / m.maxAccel) := by
  have hunderway : ∀ n ∈ (Chain.mk [m]).moves, n.IsUnderway := List.forall_mem_singleton.2 hm
  have hdrivable : ∀ n ∈ [m], n.IsDrivable := List.forall_mem_singleton.2 hm.isDrivable
  have hgain : m.gain = 2 * (m.maxAccel * m.length) := mul_assoc _ _ _
  have hback : 0 < (feasiblePeaks [m]).length := by simp
  have hlowered : m.Lowered (feasiblePeaks [m])[0] := lowered_getElem [m] Nat.one_pos hback
  -- neither pass lowers the peak below the crest that the move can reach
  have hpeak : m.maxAccel * m.length ≤ (feasiblePeaks [m])[0].peakSq := by
    have hpos := mul_nonneg hm.isDrivable.accel_pos.le hm.isDrivable.length_nonneg
    have hforth : 0 < (lowerPeaks none [m]).length := by simp
    rw [feasiblePeaks_peakSq hdrivable Nat.one_pos hforth hback,
      lowerPeaks_peakSq hdrivable Nat.one_pos hforth]
    show _ ≤ min (min m.peakSq (0 + m.gain)) (0 + m.gain)
    exact le_min (le_min hlow (by linarith)) (by linarith)
  obtain ⟨planned, hplan⟩ := exists_plan ⟨[m]⟩
  obtain ⟨hlen, -⟩ := replanned_plan hplan
  obtain ⟨n, hn⟩ := List.length_eq_one_iff.1 hlen
  obtain ⟨moves⟩ := planned
  obtain rfl : moves = [n] := hn
  obtain ⟨hjoins, hjoined⟩ := plan_of_long hunderway hplan Nat.one_pos hback
    (by rwa [hlowered.length])
  have hend : junctionSq (feasiblePeaks [m]) (0 + 1) = 0 := junctionSq_length (feasiblePeaks [m])
  dsimp only at hjoins hjoined
  rw [junctionSq_zero, hend] at hjoins hjoined
  have hduration := hjoins.duration_from_rest (by rwa [hlowered.length, hlowered.maxAccel])
  rw [hlowered.length, hlowered.maxAccel, ← hjoined] at hduration
  exact ⟨n, hplan, hduration⟩

theorem courseLength_shortArc (feedRate : ℝ) : (shortArc feedRate).courseLength = 1 / 9 := by
  show √((1 / 3 * |1 / 3|) ^ 2 + ((0 : ℝ) - 0) ^ 2) = 1 / 9
  rw [abs_of_nonneg (by norm_num), sub_zero, zero_pow two_ne_zero, add_zero,
    Real.sqrt_sq (by norm_num)]
  norm_num

/-- At a feed rate that leaves the turn within its share. -/
theorem limits_shortArc_slow : (shortArc 60).limits 5 = (1, 4) := by
  have hturn : (shortArc 60).turn ⟨.xy, ⟨0, 0⟩, 0, 1 / 3, 1 / 3⟩ 5 = 3 := by
    show min (((60 : ℝ) / 60.0) ^ 2 / (1 / 3)) (0.8 * 5) = 3
    norm_num
  have hleft : √(max ((5 : ℝ) ^ 2 - 3 ^ 2) 0) = 4 := by
    rw [show max ((5 : ℝ) ^ 2 - 3 ^ 2) 0 = 4 ^ 2 by norm_num, Real.sqrt_sq (by norm_num)]
  rw [Move.limits_arc rfl (by norm_num), hturn, hleft]
  norm_num

/-- At one that does not. -/
theorem limits_shortArc_fast : (shortArc 120).limits 5 = (4 / 3, 3) := by
  have hturn : (shortArc 120).turn ⟨.xy, ⟨0, 0⟩, 0, 1 / 3, 1 / 3⟩ 5 = 4 := by
    show min (((120 : ℝ) / 60.0) ^ 2 / (1 / 3)) (0.8 * 5) = 4
    norm_num
  have hleft : √(max ((5 : ℝ) ^ 2 - 4 ^ 2) 0) = 3 := by
    rw [show max ((5 : ℝ) ^ 2 - 4 ^ 2) 0 = 3 ^ 2 by norm_num, Real.sqrt_sq (by norm_num)]
  rw [Move.limits_arc rfl (by norm_num), hturn, hleft]
  norm_num

/-- Either way the arc is too short for its limit, so only the acceleration counts. -/
theorem exists_plan_shortArc {feedRate peakSq maxAccel : ℝ} (hfeed : 0 < feedRate)
    (hlimits : (shortArc feedRate).limits 5 = (peakSq, maxAccel)) (hlow : maxAccel / 9 ≤ peakSq) :
    ∃ m, (Chain.ofPath [shortArc feedRate] 5).map Chain.plan = [.ok ⟨[m]⟩] ∧
      m.profile.duration = 2 * √(1 / 9 / maxAccel) := by
  have hproper := isProper_shortArc hfeed
  have hpeak : ((shortArc feedRate).limited 5).peakSq = peakSq := congrArg Prod.fst hlimits
  have haccel : ((shortArc feedRate).limited 5).maxAccel = maxAccel := congrArg Prod.snd hlimits
  have hlength : ((shortArc feedRate).limited 5).length = 1 / 9 := courseLength_shortArc feedRate
  have hlong : minPlannedLength < ((shortArc feedRate).limited 5).length := by
    rw [hlength]
    norm_num [minPlannedLength]
  obtain ⟨m, hm, hduration⟩ := plan_singleton
    (Move.isUnderway_limited hproper.isDrawn hproper.feedRate_pos (by norm_num)) hlong
    (by rw [hpeak, haccel, hlength]; linarith)
  rw [haccel, hlength] at hduration
  refine ⟨m, ?_, hduration⟩
  show [Chain.plan ⟨[(shortArc feedRate).limited 5]⟩] = _
  rw [hm]

/-- A short arc at twice the feed rate takes longer. -/
theorem plan_shortArc : (∀ m ∈ [shortArc 60], m.IsProper) ∧
    List.Forall₂ Move.IsSpedUp [shortArc 60] [shortArc 120] ∧
    ∃ m n, (Chain.ofPath [shortArc 60] 5).map Chain.plan = [.ok ⟨[m]⟩] ∧
      (Chain.ofPath [shortArc 120] 5).map Chain.plan = [.ok ⟨[n]⟩] ∧
      m.profile.duration < n.profile.duration := by
  have hproper : ∀ m ∈ [shortArc 60], m.IsProper :=
    List.forall_mem_singleton.2 (isProper_shortArc (by norm_num))
  have hspedUp : List.Forall₂ Move.IsSpedUp [shortArc 60] [shortArc 120] :=
    .cons ⟨rfl, by norm_num [shortArc, Move.make]⟩ .nil
  obtain ⟨m, hm, hslow⟩ := exists_plan_shortArc (by norm_num) limits_shortArc_slow (by norm_num)
  obtain ⟨n, hn, hfast⟩ := exists_plan_shortArc (by norm_num) limits_shortArc_fast (by norm_num)
  refine ⟨hproper, hspedUp, m, n, hm, hn, ?_⟩
  rw [hslow, hfast]
  have hroot : √((1 : ℝ) / 9 / 4) < √(1 / 9 / 3) := Real.sqrt_lt_sqrt (by norm_num) (by norm_num)
  linarith

end Toolpath
