import Toolpath.Proofs.RestTheorems
import Toolpath.Proofs.SingleRoundingTheorems

/-!
# Phases partition a move

The planner cuts a move by comparing and clamping, so what it cuts fits together whatever has been
rounded on the way:

* the phases of a move follow one another from its start to its end, without a gap, and none of
  them is empty (`Tiles`, `tiles_phasesBetween`);
* they gain, keep and lose speed, in this order, and no speed is above the peak
  (`Move.IsPartitioned`);
* planning lowers the limits of the moves or leaves them, cuts the moves that carry a profile and
  leaves the others without phases (`plan_isPartitioned`).

All of it is stated for chains whose planning does not come upon a value that is no number,
`Move.IsNumeric`. Places are compared as the machine does, to which the two zeros are the same.
-/

namespace Toolpath

open Scalar

/-! ## Places -/

namespace Scalar

variable {α : Type} [Arithmetic α] {a b c : α}

/-- Two numbers that no comparison tells apart. -/
def Same (a b : α) : Prop := a ≤ b ∧ b ≤ a

theorem Same.refl (h : IsNumber a) : Same a a := ⟨h, h⟩

variable [NumberOrder α]

theorem Same.trans (h : Same a b) (h' : Same b c) : Same a c :=
  ⟨num_le_trans h.1 h'.1, num_le_trans h'.2 h.2⟩

theorem same_of_not_lt (hle : a ≤ b) (h : ¬ a < b) : Same a b :=
  ⟨hle, num_le_of_not_lt (number_left hle) (number_right hle) h⟩

end Scalar

section Tiles

variable {α : Type} [Arithmetic α]

/-- Phases that lead from one place to another, each from where the one before it has stopped, and
none of them empty. -/
def Tiles : List (Phase α) → α → α → Prop
  | [], start, stop => Same start stop
  | p :: rest, start, stop => Same start p.start ∧ p.start < p.stop ∧ Tiles rest p.stop stop

namespace Tiles

variable {phases rest : List (Phase α)} {p : Phase α} {start start' stop : α}

theorem ne_nil (h : Tiles phases start stop) (hne : ¬ Same start stop) : phases ≠ [] := by
  rintro rfl
  exact hne h

theorem lt_of_mem (h : Tiles phases start stop) (hp : p ∈ phases) : p.start < p.stop := by
  induction phases generalizing start with
  | nil => exact absurd hp List.not_mem_nil
  | cons q rest ih =>
    obtain ⟨-, hlt, hrest⟩ := h
    rcases List.mem_cons.1 hp with rfl | hp
    · exact hlt
    · exact ih hrest hp

variable [NumberOrder α]

theorem congr_start (hsame : Same start' start) (h : Tiles phases start stop) :
    Tiles phases start' stop := by
  cases phases with
  | nil => exact hsame.trans h
  | cons p rest => exact ⟨hsame.trans h.1, h.2⟩

/-- A phase in front, unless it is empty. -/
theorem cons_ite (hle : p.start ≤ p.stop) (h : Tiles rest p.stop stop) :
    Tiles ((if p.start < p.stop then [p] else []) ++ rest) p.start stop := by
  split_ifs with hlt
  · exact ⟨.refl (number_left hle), hlt, h⟩
  · exact h.congr_start (same_of_not_lt hle hlt)

end Tiles

end Tiles

variable {α : Type} [Scalar α]

/-! ## The phases of a move -/

/-- Cuts that are in order make phases that tile the move. -/
theorem tiles_phasesBetween [NumberOrder α] {m : Move α}
    {peakSq accelStop decelStart entrySq exitSq : α} (haccel : 0.0 ≤ accelStop)
    (hconst : accelStop ≤ decelStart) (hdecel : decelStart ≤ m.length) :
    Tiles (phasesBetween m peakSq accelStop decelStart entrySq exitSq) 0.0 m.length := by
  have hlast : Tiles ((if decelStart < m.length then
      [Phase.timed .decel decelStart m.length peakSq exitSq peakSq m.maxAccel] else []) ++ [])
      decelStart m.length :=
    Tiles.cons_ite (p := .timed .decel decelStart m.length peakSq exitSq peakSq m.maxAccel) hdecel
      (.refl (number_right hdecel))
  have hmiddle := Tiles.cons_ite
    (p := .timed .const accelStop decelStart peakSq peakSq peakSq m.maxAccel) hconst hlast
  have hfirst := Tiles.cons_ite
    (p := .timed .accel 0.0 accelStop entrySq peakSq peakSq m.maxAccel) haccel hmiddle
  rw [List.append_nil] at hfirst
  rw [phasesBetween, List.append_assoc]
  exact hfirst

theorem kinds_phasesBetween (m : Move α) (peakSq accelStop decelStart entrySq exitSq : α) :
    ((phasesBetween m peakSq accelStop decelStart entrySq exitSq).map (·.kind)).Sublist
      [.accel, .const, .decel] := by
  have hpart : ∀ (hasPhase : Prop) [Decidable hasPhase] (p : Phase α),
      ((if hasPhase then [p] else []).map (·.kind)).Sublist [p.kind] := by
    intro hasPhase _ p
    split_ifs
    · exact .refl _
    · exact List.nil_sublist _
  rw [phasesBetween, List.map_append, List.map_append]
  exact ((hpart _ _).append (hpart _ _)).append (hpart _ _)

section Rounding

variable [Rounding α]

/-- No speed of a phase is above the peak. -/
theorem speeds_phasesBetween {m : Move α} {peakSq accelStop decelStart entrySq exitSq : α}
    (hentry : entrySq ≤ peakSq) (hexit : exitSq ≤ peakSq) :
    ∀ p ∈ phasesBetween m peakSq accelStop decelStart entrySq exitSq,
      p.fromSq ≤ peakSq ∧ p.toSq ≤ peakSq ∧ p.topSq ≤ peakSq := by
  have hpeak := number_right hentry
  intro p hp
  rcases mem_phasesBetween hp with ⟨-, rfl⟩ | ⟨-, rfl⟩ | ⟨-, rfl⟩
  · exact ⟨hentry, hpeak, hpeak⟩
  · exact ⟨hpeak, hpeak, hpeak⟩
  · exact ⟨hpeak, hexit, hpeak⟩

/-! ## The cuts of a move -/

/-- A clamp between bounds that are in order, of a value that is a number after it. -/
theorem mem_of_clampBetween {x lo hi y : α} (h : clampBetween x lo hi = .ok y) (hy : IsNumber y) :
    lo ≤ y ∧ y ≤ hi := by
  obtain ⟨hle, rfl⟩ := clampBetween_eq_ok.1 h
  have hx : IsNumber x := by
    by_contra hx
    rw [clamp_of_not_number hx] at hy
    exact hx hy
  exact ⟨le_clamp hx hle, clamp_le hx hle⟩

/-- The profile of a planned move has been computed from numbers: the place where the move starts
losing speed is one, and so are the times of its phases. -/
structure Move.IsNumeric (m : Move α) : Prop where
  decelCut : IsNumber m.decelCut
  duration : ∀ p ∈ m.profile.phases, IsNumber p.duration

omit [Rounding α] in
theorem Move.isNumeric_iff {m : Move α} :
    m.IsNumeric ↔ IsNumber m.decelCut ∧ ∀ p ∈ m.profile.phases, IsNumber p.duration :=
  ⟨fun h => ⟨h.1, h.2⟩, fun h => ⟨h.1, h.2⟩⟩

instance (m : Move α) : Decidable m.IsNumeric := decidable_of_iff' _ Move.isNumeric_iff

/-- Where a move is cut into phases, the cuts are in order. -/
theorem Move.cuts_mem {m planned : Move α} (hrest : ¬ m.AtRest) {entrySq exitSq : α}
    (h : m.withProfile entrySq exitSq = .ok planned) (hcut : IsNumber planned.decelCut) :
    0.0 ≤ planned.accelCut ∧ planned.accelCut ≤ planned.decelCut ∧
      planned.decelCut ≤ planned.length := by
  obtain ⟨haccel, hdecel, hplanned⟩ := Move.cuts_withProfile hrest h
  have hlength : planned.length = m.length := by
    rw [← hplanned]
    rfl
  -- the end of the acceleration is a number, because it bounds the second clamp
  have hbound := (clampBetween_eq_ok.1 hdecel).1
  rw [hlength]
  exact ⟨(mem_of_clampBetween haccel (number_left hbound)).1, mem_of_clampBetween hdecel hcut⟩

/-- A move that does not rest, and whose length is a number, has a length above zero. -/
theorem Move.length_pos {m : Move α} (hrest : ¬ m.AtRest) (hlength : IsNumber m.length) :
    0.0 < m.length := by
  have hshort : (0.0 : α) ≤ minPlannedLength := Rounding.zero_le_short
  exact num_lt_of_le_of_lt hshort
    (num_lt_of_not_le hlength (number_right hshort) fun hle => hrest (.inl hle))

/-! ## Partitioned moves -/

/-- A move cut into phases: what they are, how they fit together, and what they add up to. -/
structure Move.IsPartitioned (m : Move α) : Prop where
  ne_nil : m.profile.phases ≠ []
  kinds : (m.profile.phases.map (·.kind)).Sublist [.accel, .const, .decel]
  tiles : Tiles m.profile.phases 0.0 m.length
  length_pos : ∀ p ∈ m.profile.phases, 0.0 < p.length
  duration_nonneg : ∀ p ∈ m.profile.phases, 0.0 ≤ p.duration
  speeds : ∀ p ∈ m.profile.phases,
    p.fromSq ≤ m.peakSq ∧ p.toSq ≤ m.peakSq ∧ p.topSq ≤ m.peakSq
  duration_eq : m.profile.duration = m.profile.phases.foldl (fun t p => t + p.duration) 0.0

end Rounding

variable [Gradual α]

/-- A move that does not rest is cut into phases. -/
theorem Move.isPartitioned_withProfile {m planned : Move α} (hpeak : IsNumber m.peakSq)
    (hrest : ¬ m.AtRest) {entrySq exitSq : α}
    (h : m.withProfile entrySq exitSq = .ok planned) (hnumeric : planned.IsNumeric) :
    planned.IsPartitioned := by
  have hlength := (Move.replanned_withProfile h).length
  have hphases := Move.phases_of_not_atRest hrest h
  have hle := number_left (Move.peakSq_withProfile_le hpeak h)
  obtain ⟨hstart, hmiddle, hstop⟩ := Move.cuts_mem hrest h hnumeric.decelCut
  -- the cuts lie in order between the ends of the move, so the phases tile it
  have htiles : Tiles planned.profile.phases 0.0 planned.length := by
    rw [hphases]
    exact tiles_phasesBetween hstart hmiddle hstop
  have hpos : 0.0 < planned.length := by
    rw [hlength] at hstop ⊢
    exact Move.length_pos hrest (number_right hstop)
  constructor
  case ne_nil => exact htiles.ne_nil fun hsame => num_not_le_of_lt hpos hsame.2
  case kinds =>
    rw [hphases]
    exact kinds_phasesBetween _ _ _ _ _ _
  case tiles => exact htiles
  case length_pos => exact fun p hp => Gradual.zero_lt_sub _ _ (htiles.lt_of_mem hp)
  case duration_nonneg =>
    exact fun p hp => (nonneg_duration_withProfile h p hp).zero_le (hnumeric.duration p hp)
  case speeds =>
    rw [hphases]
    exact speeds_phasesBetween (least_le hle) (least_le hle)
  case duration_eq =>
    obtain ⟨-, -, hplanned⟩ := Move.cuts_withProfile hrest h
    rw [← hplanned]
    rfl

/-! ## Planned chains -/

/-- What planning makes of a move: it may lower its limit, and it cuts it into phases or, if it
rests, leaves it without any. -/
structure Move.CutInto (m planned : Move α) : Prop where
  length : planned.length = m.length
  maxAccel : planned.maxAccel = m.maxAccel
  peakSq : planned.peakSq ≤ m.peakSq
  rest : m.AtRest → planned.profile.phases = [] ∧ planned.profile.duration = 0.0
  moving : ¬ m.AtRest → planned.IsPartitioned

/-- Planning a chain of moves with limits that are numbers partitions the moves that do not rest,
where it comes upon numbers only. -/
theorem plan_isPartitioned {c planned : Chain α} (h : ∀ m ∈ c.moves, IsNumber m.peakSq)
    (hplan : c.plan = .ok planned) (hnumeric : ∀ m ∈ planned.moves, ¬ m.AtRest → m.IsNumeric) :
    List.Forall₂ Move.CutInto c.moves planned.moves := by
  obtain ⟨hlen, hkept⟩ := replanned_plan hplan
  obtain ⟨-, hget⟩ := profileMoves_getElem (Chain.plan_eq_ok.1 hplan)
  have hlen' := length_feasiblePeaks c.moves
  rw [List.forall₂_iff_get]
  refine ⟨hlen.symm, fun i hi hi' => ?_⟩
  have hback : i < (feasiblePeaks c.moves).length := by omega
  -- the two passes lower the peaks and change nothing else, so a move rests as it did before
  have hlowered := lowered_getElem c.moves hi hback
  have hpeak : IsNumber (feasiblePeaks c.moves)[i].peakSq :=
    number_left ((peakSq_feasiblePeaks_le h).get hi hback)
  have hmove := hget i hback hi'
  have hreplanned := hkept i hi hi'
  constructor
  case length => exact hreplanned.length
  case maxAccel => exact hreplanned.maxAccel
  case peakSq => exact (peakSq_plan_le h hplan).get hi hi'
  case rest =>
    intro hrest
    rw [Move.withProfile_of_atRest (hlowered.atRest_iff.2 hrest)] at hmove
    show planned.moves[i].profile.phases = [] ∧ planned.moves[i].profile.duration = 0.0
    rw [← Except.ok.inj hmove]
    exact ⟨rfl, rfl⟩
  case moving =>
    intro hrest
    have hrest' : ¬ planned.moves[i].AtRest := by
      rwa [Move.AtRest, hreplanned.length, hreplanned.maxAccel]
    exact Move.isPartitioned_withProfile hpeak (fun hat => hrest (hlowered.atRest_iff.1 hat)) hmove
      (hnumeric _ (List.getElem_mem hi') hrest')

/-- Three lines in one direction, of which the last is too short to carry a profile. -/
def straightThree : Chain Float32 :=
  ⟨[(0.0, 0.01), (0.01, 5.0), (5.0, 5.0)].map fun (x, x') =>
    (Move.make .line ⟨x, 0.0, 0.0⟩ ⟨x', 0.0, 0.0⟩ 6000.0 1 .normal).limited 1000.0⟩

/-- They are planned with numbers only, so the first two are partitioned. -/
theorem plan_isPartitioned_straight : (∀ m ∈ straightThree.moves, IsNumber m.peakSq) ∧
    ∃ planned, straightThree.plan = .ok planned ∧
      (∀ m ∈ planned.moves, ¬ m.AtRest → m.IsNumeric) ∧
      List.Forall₂ Move.CutInto straightThree.moves planned.moves := by
  have hpeaks : ∀ m ∈ straightThree.moves, IsNumber m.peakSq := by decide +kernel
  have hplans : ∃ planned ∈ straightThree.plan.toOption,
      ∀ m ∈ planned.moves, ¬ m.AtRest → m.IsNumeric := by decide +kernel
  rcases hplan : straightThree.plan with fault | planned
  · rw [hplan] at hplans
    obtain ⟨_, hmem, -⟩ := hplans
    cases hmem
  · rw [hplan] at hplans
    obtain ⟨_, ⟨⟩, hnumeric⟩ := hplans
    exact ⟨hpeaks, planned, rfl, hnumeric, plan_isPartitioned hpeaks hplan hnumeric⟩

end Toolpath
