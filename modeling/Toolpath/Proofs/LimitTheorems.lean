import Toolpath.Proofs.InterpretationTheorems
import Toolpath.Proofs.RoundingTheorems
import Toolpath.Proofs.PlanTheorems

/-!
# Limits under rounding

Whatever a program says, and whatever is rounded or undefined on the way, what planning starts
from is not below zero:

* the radius of every arc of the path (`Move.IsDrawn`, `isDrawn_run`);
* the length, the limit of the speed and the acceleration of every move (`Move.IsLimited`,
  `Move.IsDrawn.isLimited`), the acceleration being a number besides;
* the peaks that the two passes of the planner leave (`isLimited_feasiblePeaks`), and with them
  the speeds at the junctions (`nonneg_boundarySq`).

Planning raises no peak (`peakSq_plan_le`).
-/

namespace Toolpath

open Scalar

variable {α : Type} [Scalar α] [Rounding α]

/-! ## Arcs -/

/-- An arc that does not have a radius below zero. -/
def Move.IsDrawn (m : Move α) : Prop :=
  match m.shape with
  | .line => True
  | .arc arc => Nonneg arc.radius

namespace Machine

/-- The radius of a circle is the programmed one without its sign. -/
theorem nonneg_circleOfRadius {chord : Vec2 α} {clockwise : Bool} {radius : α} {c : Circle α}
    (h : circleOfRadius chord clockwise radius = .ok c) : Nonneg c.radius := by
  unfold circleOfRadius at h
  dsimp only at h
  -- where a circle is given at all, the sign of the radius has been decided
  split_ifs at h with hchord hshort hnegative hclockwise hradius
  all_goals cases h
  all_goals first
    | exact Rounding.nonneg_neg radius ‹_›
    | assumption

theorem nonneg_circle {m : Machine α} {b : Block} {target : Vec3 α} {clockwise : Bool}
    {c : Circle α} (h : m.circle b target clockwise = .ok c) : Nonneg c.radius := by
  unfold circle at h
  cases hword : (b.value? 'R' : Option α) with
  | some radius =>
    rw [hword] at h
    dsimp only at h
    rcases hcircle : circleOfRadius (m.plane.project target - m.plane.project m.position) clockwise
        radius with fault | circle
    · rw [hcircle] at h
      cases h
    · rw [hcircle] at h
      cases h
      exact nonneg_circleOfRadius hcircle
  | none =>
    rw [hword] at h
    dsimp only at h
    split_ifs at h
    cases h
    exact Rounding.nonneg_sqrt _

omit [Rounding α] in
theorem isDrawn_straightMove {m : Machine α} {s : MachineSettings α} {line : ℕ} {pace : Pace}
    {target : Vec3 α} {move : Move α} (h : m.straightMove s line pace target = some move) :
    move.IsDrawn := by
  unfold straightMove at h
  split_ifs at h
  cases h
  trivial

theorem isDrawn_execute {m : Machine α} {s : Settings α} {b : Block} {move : Move α}
    (h : (m.execute s b).move? = some move) : move.IsDrawn := by
  rcases straight_or_arc (move_execute.1 h) with ⟨pace, hline⟩ | ⟨clockwise, circle, hc, rfl⟩
  · exact isDrawn_straightMove hline
  · exact nonneg_circle hc

end Machine

section Path

variable {σ : Type} {s : Settings α} {listen : σ → Move α → σ} {i : Interpretation α σ}

theorem isDrawn_step (h : ∀ m ∈ i.path, m.IsDrawn) (b : Block) :
    ∀ m ∈ (Interpretation.step s listen i b).path, m.IsDrawn := by
  unfold Interpretation.step
  dsimp only
  cases hmove : (i.machine.execute s b).move? with
  | none => exact h
  | some move =>
    intro m hm
    rcases Array.mem_push.1 hm with hm | rfl
    · exact h m hm
    · show move.IsDrawn
      exact Machine.isDrawn_execute hmove

/-- A program adds drawn arcs only. -/
theorem isDrawn_run (h : ∀ m ∈ i.path, m.IsDrawn) (p : Program) :
    ∀ m ∈ (Interpretation.run s listen i p).path, m.IsDrawn := by
  unfold Interpretation.run
  induction p generalizing i with
  | nil => exact h
  | cons b rest ih => exact ih (isDrawn_step h b)

end Path

/-! ## Limits of a move -/

/-- Nothing that planning reads is below zero. -/
structure Move.IsLimited (m : Move α) : Prop where
  length : Nonneg m.length
  peakSq : Nonneg m.peakSq
  maxAccel : 0.0 ≤ m.maxAccel

theorem Move.nonneg_courseLength (m : Move α) : Nonneg m.courseLength := by
  unfold Move.courseLength
  split
  · exact Rounding.nonneg_sqrt _
  · exact Rounding.nonneg_hypot _ _

theorem zero_le_sqrt_greatest (x : α) : 0.0 ≤ sqrt (greatest x 0.0) :=
  (Rounding.nonneg_sqrt _).zero_le (Rounding.isNumber_sqrt _ (zero_le_greatest x))

theorem Move.IsDrawn.isLimited {m : Move α} (h : m.IsDrawn) {acceleration : α}
    (ha : 0.0 ≤ acceleration) : (m.limited acceleration).IsLimited := by
  have hlimits : Nonneg (m.limits acceleration).1 ∧ 0.0 ≤ (m.limits acceleration).2 := by
    have hsquare := Rounding.nonneg_mul_self (perSecond m.feedRate)
    have hcap : Nonneg (Move.maxTurnShare * acceleration) :=
      Rounding.nonneg_mul _ _ (nonneg_of_le Rounding.zero_le_share) (nonneg_of_le ha)
    unfold Move.IsDrawn at h
    unfold Move.limits
    cases hshape : m.shape with
    | line => exact ⟨hsquare, ha⟩
    | arc arc =>
      rw [hshape] at h
      dsimp only
      -- a turn that asks for too much is limited by its radius
      split_ifs
      · exact ⟨Rounding.nonneg_mul _ _ hcap h, zero_le_sqrt_greatest _⟩
      · exact ⟨hsquare, zero_le_sqrt_greatest _⟩
  exact ⟨m.nonneg_courseLength, hlimits.1, hlimits.2⟩

/-! ## Peaks -/

/-- The speed at a junction of peaks that are not below zero is not below zero. -/
theorem nonneg_boundarySq {neighbour : Option α} {peakSq : α}
    (hneighbour : ∀ other, neighbour = some other → Nonneg other) (hpeak : Nonneg peakSq) :
    Nonneg (boundarySq neighbour peakSq) := by
  cases neighbour with
  | none => exact nonneg_of_le isNumber_zero
  | some other => exact (hneighbour other rfl).least hpeak

/-- The speed at a junction beside a peak that is a number. -/
theorem zero_le_boundarySq {neighbour : Option α} {peakSq : α}
    (hneighbour : ∀ other, neighbour = some other → Nonneg other) (hpeak : 0.0 ≤ peakSq) :
    0.0 ≤ boundarySq neighbour peakSq := by
  have hnonneg := nonneg_boundarySq hneighbour (nonneg_of_le hpeak)
  cases neighbour with
  | none => exact isNumber_zero
  | some other => exact hnonneg.zero_le (number_left (least_le (number_right hpeak)))

/-- The speed at a junction is not above a peak beside it that is not below zero. -/
theorem boundarySq_le {neighbour : Option α} {peakSq : α} (hpeak : 0.0 ≤ peakSq) :
    boundarySq neighbour peakSq ≤ peakSq := by
  cases neighbour with
  | none => exact hpeak
  | some other => exact least_le (number_right hpeak)

/-- A pass raises no peak that is a number. -/
theorem lowerPeaks_le (before : Option α) {moves lowered : List (Move α)}
    (h : List.Forall₂ (fun m n => n.peakSq ≤ m.peakSq) moves lowered) :
    List.Forall₂ (fun m n => n.peakSq ≤ m.peakSq) moves (lowerPeaks before lowered) := by
  induction h generalizing before with
  | nil => exact .nil
  | cons hle _ ih =>
    rw [lowerPeaks_cons]
    exact .cons (num_le_trans (least_le_left (number_left hle)) hle) (ih _)

/-- Neither do both passes together. -/
theorem peakSq_feasiblePeaks_le {moves : List (Move α)} (h : ∀ m ∈ moves, IsNumber m.peakSq) :
    List.Forall₂ (fun m n => n.peakSq ≤ m.peakSq) moves (feasiblePeaks moves) := by
  have hforth := lowerPeaks_le none (List.forall₂_same.2 h)
  have hback := lowerPeaks_le none (List.forall₂_reverse_iff.2 hforth)
  apply List.forall₂_reverse_iff.1
  rwa [feasiblePeaks, List.reverse_reverse]

theorem Move.IsLimited.lowerPeak {m : Move α} (h : m.IsLimited) {entrySq : α}
    (hentry : Nonneg entrySq) : (m.lowerPeak entrySq).IsLimited := by
  have htwice : Nonneg (2.0 * m.maxAccel) :=
    Rounding.nonneg_mul _ _ (nonneg_of_le Rounding.zero_le_two) (nonneg_of_le h.maxAccel)
  have hramp : Nonneg (if 0.0 < 2.0 * m.maxAccel then entrySq / (2.0 * m.maxAccel) else 0.0) := by
    split_ifs with hpos
    · exact Rounding.nonneg_div _ _ hentry (num_not_le_of_lt hpos)
    · exact nonneg_of_le isNumber_zero
  exact ⟨h.length, h.peakSq.least
    (Rounding.nonneg_mul _ _ htwice (Rounding.nonneg_add _ _ hramp h.length)), h.maxAccel⟩

/-- What lowering the peak of a limited move keeps, a pass keeps. -/
theorem forall_lowerPeaks {P : Move α → Prop}
    (hkeep : ∀ (m : Move α) (entrySq : α), m.IsLimited → P m → Nonneg entrySq →
      P (m.lowerPeak entrySq)) (before : Option α) (moves : List (Move α))
    (hbefore : ∀ other, before = some other → Nonneg other)
    (h : ∀ m ∈ moves, m.IsLimited ∧ P m) : ∀ m ∈ lowerPeaks before moves, m.IsLimited ∧ P m := by
  -- the lowered peak is in front of the next move, so it has to be limited as well
  induction moves generalizing before with
  | nil => exact h
  | cons m rest ih =>
    obtain ⟨hm, hP⟩ := h m List.mem_cons_self
    have hentry := nonneg_boundarySq hbefore hm.peakSq
    have hlowered := hm.lowerPeak hentry
    rw [lowerPeaks_cons, List.forall_mem_cons]
    refine ⟨⟨hlowered, hkeep m _ hm hP hentry⟩, ih _ ?_ fun n hn => h n (List.mem_cons_of_mem m hn)⟩
    rintro other ⟨⟩
    exact hlowered.peakSq

/-- Both passes keep it. -/
theorem forall_feasiblePeaks {P : Move α → Prop}
    (hkeep : ∀ (m : Move α) (entrySq : α), m.IsLimited → P m → Nonneg entrySq →
      P (m.lowerPeak entrySq)) {moves : List (Move α)} (h : ∀ m ∈ moves, m.IsLimited ∧ P m) :
    ∀ m ∈ feasiblePeaks moves, m.IsLimited ∧ P m := by
  have hforth := forall_lowerPeaks hkeep none moves (by simp) h
  have hback := forall_lowerPeaks hkeep none (lowerPeaks none moves).reverse (by simp)
    (by simpa using hforth)
  simpa [feasiblePeaks] using hback

theorem isLimited_feasiblePeaks {moves : List (Move α)} (h : ∀ m ∈ moves, m.IsLimited) :
    ∀ m ∈ feasiblePeaks moves, m.IsLimited := by
  have hboth := forall_feasiblePeaks (P := fun _ => True) (fun _ _ _ _ _ => trivial)
    fun m hm => ⟨h m hm, trivial⟩
  exact fun m hm => (hboth m hm).1

/-! ## Planned peaks -/

omit [Rounding α] in
/-- The crest of a move is not above its limit. -/
theorem crest_le {m : Move α} (hpeak : IsNumber m.peakSq) (entryRamp exitRamp : α) :
    (crest m entryRamp exitRamp).1 ≤ m.peakSq := by
  unfold crest
  dsimp only
  split_ifs with htriangle
  · exact htriangle.2
  · exact hpeak

omit [Rounding α] in
/-- A profile raises no limit that is a number. -/
theorem Move.peakSq_withProfile_le {m planned : Move α} (hpeak : IsNumber m.peakSq)
    {entrySq exitSq : α} (h : m.withProfile entrySq exitSq = .ok planned) :
    planned.peakSq ≤ m.peakSq := by
  by_cases hrest : m.AtRest
  · rw [Move.withProfile_of_atRest hrest] at h
    cases h
    exact hpeak
  · obtain ⟨accelStop, decelStart, -, -, rfl⟩ := (Move.withProfile_eq_ok hrest).1 h
    exact crest_le hpeak _ _

/-- Planning raises no limit that is a number. -/
theorem peakSq_plan_le {c planned : Chain α} (h : ∀ m ∈ c.moves, IsNumber m.peakSq)
    (hplan : c.plan = .ok planned) :
    List.Forall₂ (fun m n => n.peakSq ≤ m.peakSq) c.moves planned.moves := by
  obtain ⟨hlen, hget⟩ := profileMoves_getElem (Chain.plan_eq_ok.1 hplan)
  rw [length_feasiblePeaks] at hlen
  rw [List.forall₂_iff_get]
  refine ⟨hlen.symm, fun i hi hi' => ?_⟩
  have hback : i < (feasiblePeaks c.moves).length := by rwa [length_feasiblePeaks]
  have hle : (feasiblePeaks c.moves)[i].peakSq ≤ c.moves[i].peakSq :=
    (peakSq_feasiblePeaks_le h).get hi hback
  exact num_le_trans (Move.peakSq_withProfile_le (number_left hle) (hget i hback hi')) hle

end Toolpath
