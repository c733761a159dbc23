import Toolpath.Proofs.PassageTheorems
import Toolpath.Proofs.ProfileTheorems

/-!
# Planning in reverse

The planner passes over a chain from its start to its end first and back afterwards, and the second
pass starts from peaks that the first one has lowered. Over the reals it makes no difference which
end comes first: the moves of the reversed chain are planned as the mirror images of the planned
moves (`plan_reversed`).

* The speeds at the junctions are the greatest feasible ones, and a feasible sequence read
  backwards is feasible for the reversed chain (`IsFeasible.reverse`), so they are the same
  (`junctionSq_reverse`).
* The peaks that the passes leave follow from the limits and the junctions alone
  (`feasiblePeaks_peakSq_eq_min`), so they are the same too (`feasiblePeaks_reverse`).
* Between exchanged speeds a move gets the mirror image of its profile
  (`Move.Joins.mirrored_joined`).
-/

namespace Toolpath

open Scalar

/-! ## Mirror images -/

section Mirrored

variable {α : Type}

/-- What a phase does when it is run backwards. -/
def PhaseKind.mirrored : PhaseKind → PhaseKind
  | .accel => .decel
  | .const => .const
  | .decel => .accel

/-- A phase of a move of the given length, run backwards. -/
def Phase.mirrored [Arithmetic α] (length : α) (p : Phase α) : Phase α :=
  { p with
    kind := p.kind.mirrored
    start := length - p.stop
    stop := length - p.start
    fromSq := p.toSq
    toSq := p.fromSq }

/-- The profile of a move of the given length, run backwards. -/
def Profile.mirrored [Arithmetic α] (length : α) (p : Profile α) : Profile α :=
  { p with
    entryRamp := p.exitRamp
    exitRamp := p.entryRamp
    phases := (p.phases.map (Phase.mirrored length)).reverse }

/-- A move with its profile run backwards. -/
def Move.mirrored [Arithmetic α] (m : Move α) : Move α :=
  { m with profile := m.profile.mirrored m.length }

/-- A chain with its moves in reverse order. -/
def Chain.reversed (c : Chain α) : Chain α := ⟨c.moves.reverse⟩

end Mirrored

/-! ## Junctions in reverse -/

section Junctions

variable {moves : List (Move ℝ)}

theorem forall_mem_reverse {P : Move ℝ → Prop} (h : ∀ m ∈ moves, P m) :
    ∀ m ∈ moves.reverse, P m :=
  fun m hm => h m (List.mem_reverse.1 hm)

/-- Read backwards, a feasible sequence is feasible for the reversed chain. -/
theorem IsFeasible.reverse {speedSq : ℕ → ℝ} (hs : IsFeasible moves speedSq) :
    IsFeasible moves.reverse fun i => speedSq (moves.length - i) where
  start := hs.stop
  stop := by rw [List.length_reverse, Nat.sub_self, hs.start]
  capped i hi := by
    rw [List.length_reverse] at hi
    -- the two moves beside the junction, counted from the other end
    obtain ⟨j, hj⟩ : ∃ j, moves.length = i + j + 2 := ⟨moves.length - i - 2, by omega⟩
    have hplace : moves.length - (i + 1) = j + 1 := by omega
    have hlast : moves.length - 1 - i = j + 1 := by omega
    have hfirst : moves.length - 1 - (i + 1) = j := by omega
    have hcapped := hs.capped j (by omega)
    simp only [List.getElem_reverse, hplace, hlast, hfirst]
    rwa [min_comm]
  ramp i hi := by
    rw [List.length_reverse] at hi
    obtain ⟨j, hj⟩ : ∃ j, moves.length = i + j + 1 := ⟨moves.length - i - 1, by omega⟩
    have hstop : moves.length - (i + 1) = j := by omega
    have hstart : moves.length - i = j + 1 := by omega
    have hplace : moves.length - 1 - i = j := by omega
    have hramp := hs.ramp j (by omega)
    simp only [List.getElem_reverse, hstop, hstart, hplace]
    rwa [abs_sub_comm]

/-- The speeds of a chain, read backwards, are not greater than those of the reversed chain. -/
theorem junctionSq_le_reverse (h : ∀ m ∈ moves, m.IsDrivable) {i : ℕ} (hi : i ≤ moves.length) :
    junctionSq (feasiblePeaks moves) (moves.length - i) ≤
      junctionSq (feasiblePeaks moves.reverse) i := by
  have hfeasible := (isFeasible_junctionSq h).reverse
  exact hfeasible.le_junctionSq (forall_mem_reverse h) (by rwa [List.length_reverse])

/-- The reversed chain has the same speeds at its junctions. -/
theorem junctionSq_reverse (h : ∀ m ∈ moves, m.IsDrivable) {i : ℕ} (hi : i ≤ moves.length) :
    junctionSq (feasiblePeaks moves.reverse) i =
      junctionSq (feasiblePeaks moves) (moves.length - i) := by
  apply le_antisymm
  · -- reversed once more, the reversed chain is the chain itself
    have hle := junctionSq_le_reverse (forall_mem_reverse h)
      (i := moves.length - i) (by rw [List.length_reverse]; omega)
    rw [List.length_reverse, List.reverse_reverse] at hle
    have hback : moves.length - (moves.length - i) = i := by omega
    rwa [hback] at hle
  · exact junctionSq_le_reverse h hi

/-! ## Peaks in reverse -/

/-- The backward pass raises no peak of the forward pass. -/
theorem peakBefore_feasiblePeaks_le (h : ∀ m ∈ moves, m.IsDrivable) {i : ℕ}
    (hi : i < moves.length) :
    (peakBefore none (feasiblePeaks moves) i).getD 0 ≤
      (peakBefore none (lowerPeaks none moves) i).getD 0 := by
  cases i with
  | zero => exact le_rfl
  | succ j =>
    have hj : j < moves.length := by omega
    have hforth : j < (lowerPeaks none moves).length := by rwa [length_lowerPeaks]
    have hback : j < (feasiblePeaks moves).length := by rwa [length_feasiblePeaks]
    have hpeak := feasiblePeaks_peakSq h hj hforth hback
    rw [peakBefore, peakBefore, List.getElem?_eq_getElem hforth, List.getElem?_eq_getElem hback]
    exact hpeak.le.trans (min_le_left _ _)

/-- The passes leave a move the peak that its limit, and its gain over the slower of its two
junctions, allow. -/
theorem feasiblePeaks_peakSq_eq_min (h : ∀ m ∈ moves, m.IsDrivable) {i : ℕ}
    (hi : i < moves.length) (hi' : i < (feasiblePeaks moves).length) :
    (feasiblePeaks moves)[i].peakSq =
      min moves[i].peakSq
        (min (junctionSq (feasiblePeaks moves) i) (junctionSq (feasiblePeaks moves) (i + 1))
          + moves[i].gain) := by
  have hgain := (h _ (List.getElem_mem hi)).gain_nonneg
  have hpeak := (isDrivable_feasiblePeaks h _ (List.getElem_mem hi')).peak_nonneg
  rw [junctionSq_entry hi' hpeak, junctionSq_exit hi' hpeak, ← min_add_add_right]
  apply le_antisymm
  · -- a move does not gain more than its own peak is above its junctions
    have hbefore := peakSq_le_before h hi hi'
    have hafter := peakSq_le_after h hi hi'
    rw [← min_add_add_right, ← min_add_add_right]
    exact le_min (feasiblePeaks_le h hi hi')
      (le_min (le_min hbefore (by linarith)) (le_min hafter (by linarith)))
  · -- the bounds that the two passes take are these or weaker ones
    have hforth : i < (lowerPeaks none moves).length := by rwa [length_lowerPeaks]
    have hbefore := peakBefore_feasiblePeaks_le h hi
    have hentry := min_le_left ((peakBefore none (feasiblePeaks moves) i).getD 0)
      (feasiblePeaks moves)[i].peakSq
    have hexit := min_le_left ((peakAfter (feasiblePeaks moves) i).getD 0)
      (feasiblePeaks moves)[i].peakSq
    refine le_of_le_of_eq ?_ (feasiblePeaks_peakSq h hi hforth hi').symm
    rw [lowerPeaks_peakSq h hi hforth]
    refine le_min (le_min (min_le_left _ _) ?_) ?_
    · exact (min_le_right _ _).trans ((min_le_left _ _).trans (by linarith))
    · exact (min_le_right _ _).trans ((min_le_right _ _).trans (by linarith))

/-- The passes leave the same peaks whichever end of the chain comes first. -/
theorem feasiblePeaks_reverse (h : ∀ m ∈ moves, m.IsDrivable) :
    feasiblePeaks moves.reverse = (feasiblePeaks moves).reverse := by
  have hlen := length_feasiblePeaks moves
  have hlen' := length_feasiblePeaks moves.reverse
  rw [List.length_reverse] at hlen'
  apply List.ext_getElem (by rw [List.length_reverse, hlen, hlen'])
  intro i hi hi'
  obtain ⟨j, hj⟩ : ∃ j, moves.length = i + j + 1 := ⟨moves.length - i - 1, by omega⟩
  have hplace : moves.length - 1 - i = j := by omega
  have hplace' : (feasiblePeaks moves).length - 1 - i = j := by omega
  have hforth : i < moves.reverse.length := by rw [List.length_reverse]; omega
  have hback : j < (feasiblePeaks moves).length := by omega
  -- both are the same move with a new peak, and the peaks follow from the same junctions
  have hlowered := lowered_getElem moves.reverse hforth hi
  have hlowered' := lowered_getElem moves (by omega) hback
  have hpeak := feasiblePeaks_peakSq_eq_min (forall_mem_reverse h) hforth hi
  have hpeak' := feasiblePeaks_peakSq_eq_min h (by omega) hback
  have hstart : moves.length - i = j + 1 := by omega
  have hstop : moves.length - (i + 1) = j := by omega
  rw [junctionSq_reverse h (by omega), junctionSq_reverse h (by omega), hstart, hstop, min_comm
    (junctionSq _ _)] at hpeak
  simp only [List.getElem_reverse, hplace] at hlowered hpeak
  simp only [List.getElem_reverse, hplace']
  rw [Move.Lowered] at hlowered hlowered'
  rw [hlowered, hlowered', hpeak, hpeak']

end Junctions

/-! ## Profiles in reverse -/

/-- A phase run backwards takes the same time. -/
theorem Phase.mirrored_timed (length : ℝ) (kind : PhaseKind)
    (start stop fromSq toSq topSq maxAccel : ℝ) :
    (Phase.timed kind start stop fromSq toSq topSq maxAccel).mirrored length =
      Phase.timed kind.mirrored (length - stop) (length - start) toSq fromSq topSq maxAccel := by
  have hramp : |√fromSq - √toSq| = |√toSq - √fromSq| := abs_sub_comm _ _
  have hway : length - start - (length - stop) = stop - start := by ring
  cases kind with
  | accel => exact congrArg (Phase.mk _ _ _ _ _ _) (congrArg (· / maxAccel) hramp)
  | decel => exact congrArg (Phase.mk _ _ _ _ _ _) (congrArg (· / maxAccel) hramp)
  | const =>
    unfold Phase.timed phaseDuration Phase.mirrored PhaseKind.mirrored
    dsimp only
    rw [hway]

/-- The phases between two bounds, run backwards, are those between the mirrored bounds. -/
theorem phasesBetween_mirrored (m : Move ℝ) (peakSq accelStop decelStart entrySq exitSq : ℝ) :
    ((phasesBetween m peakSq accelStop decelStart entrySq exitSq).map
        (Phase.mirrored m.length)).reverse =
      phasesBetween m peakSq (m.length - decelStart) (m.length - accelStop) exitSq entrySq := by
  have hzero : (0.0 : ℝ) = 0 := by norm_num
  have hsingle : ∀ (c : Prop) [Decidable c] (p : Phase ℝ),
      ((if c then [p] else []).map (Phase.mirrored m.length)).reverse =
        if c then [p.mirrored m.length] else [] := by
    intro c _ p
    split_ifs <;> rfl
  unfold phasesBetween
  rw [List.map_append, List.map_append, List.reverse_append, List.reverse_append, hsingle, hsingle,
    hsingle, Phase.mirrored_timed, Phase.mirrored_timed, Phase.mirrored_timed, hzero, sub_zero,
    sub_self, List.append_assoc]
  simp only [sub_pos, sub_lt_sub_iff_left, sub_lt_self_iff, PhaseKind.mirrored]

namespace Move.Joins

variable {m : Move ℝ} {entrySq exitSq : ℝ}

/-- A move that can join two speeds can join them the other way round. -/
theorem swap (h : m.Joins entrySq exitSq) : m.Joins exitSq entrySq :=
  { h with
    entry_nonneg := h.exit_nonneg
    entry_le := h.exit_le
    exit_nonneg := h.entry_nonneg
    exit_le := h.entry_le
    ramp := by
      rw [abs_sub_comm]
      exact h.ramp }

/-- Between exchanged speeds a move gets the mirror image of its profile. -/
theorem mirrored_joined (h : m.Joins entrySq exitSq) :
    (m.joined entrySq exitSq).mirrored = m.joined exitSq entrySq := by
  have hcrest : m.crestSq exitSq entrySq = m.crestSq entrySq exitSq := by
    rw [Move.crestSq, Move.crestSq, add_comm exitSq]
  have hstop : m.accelStop exitSq entrySq = m.length - m.decelStart entrySq exitSq := by
    rw [Move.accelStop, Move.decelStart, hcrest]
    ring
  have hstart : m.decelStart exitSq entrySq = m.length - m.accelStop entrySq exitSq := by
    rw [Move.accelStop, Move.decelStart, hcrest]
  have hphases : (((m.joined entrySq exitSq).profile.phases).map
      (Phase.mirrored m.length)).reverse = (m.joined exitSq entrySq).profile.phases := by
    rw [h.phases_joined, h.swap.phases_joined, phasesBetween_mirrored, hcrest, hstop, hstart]
  -- the phases take the same times, added up in another order
  have hduration : (m.joined exitSq entrySq).profile.duration =
      (m.joined entrySq exitSq).profile.duration := by
    show (m.joined exitSq entrySq).profile.phases.foldl (fun t p => t + p.duration) 0.0 =
      (m.joined entrySq exitSq).profile.phases.foldl (fun t p => t + p.duration) 0.0
    rw [foldl_duration, foldl_duration, ← hphases, List.map_reverse, List.sum_reverse,
      List.map_map]
    rfl
  have hprofile : (m.joined entrySq exitSq).profile.mirrored m.length =
      (m.joined exitSq entrySq).profile := by
    unfold Profile.mirrored
    rw [hphases, ← hduration]
    rfl
  show { m with
    peakSq := m.crestSq entrySq exitSq
    profile := (m.joined entrySq exitSq).profile.mirrored m.length } = _
  rw [hprofile, ← hcrest]
  rfl

end Move.Joins

/-! ## Planned chains in reverse -/

/-- A chain can be planned from either end: the moves of the reversed chain are planned to the
mirror images of the planned moves, in reverse order. -/
theorem plan_reversed (c : Chain ℝ) (h : ∀ m ∈ c.moves, m.IsPlannable) :
    ∃ planned, c.plan = .ok planned ∧ planned.moves.length = c.moves.length ∧
      c.reversed.plan = .ok ⟨(planned.moves.map Move.mirrored).reverse⟩ := by
  obtain ⟨planned, hplan⟩ := exists_plan c
  obtain ⟨back, hback⟩ := exists_plan c.reversed
  obtain ⟨hlen, -⟩ := replanned_plan hplan
  obtain ⟨hlen', -⟩ := replanned_plan hback
  have hdrivable : ∀ m ∈ c.moves, m.IsDrivable := fun m hm => (h m hm).isDrivable
  have hpasses := length_feasiblePeaks c.moves
  have hreversed : c.reversed.moves.length = c.moves.length := List.length_reverse
  refine ⟨planned, hplan, hlen, hback.trans (congrArg (Except.ok ∘ Chain.mk) ?_)⟩
  apply List.ext_getElem (by rw [List.length_reverse, List.length_map, hlen, hlen', hreversed])
  intro i hi hi'
  obtain ⟨j, hj⟩ : ∃ j, c.moves.length = i + j + 1 := ⟨c.moves.length - i - 1, by omega⟩
  have hplace : planned.moves.length - 1 - i = j := by omega
  have hpeaks : (feasiblePeaks c.moves).length - 1 - i = j := by omega
  have hstart : c.moves.length - i = j + 1 := by omega
  have hstop : c.moves.length - (i + 1) = j := by omega
  have hpass : j < (feasiblePeaks c.moves).length := by omega
  have hpass' : i < (feasiblePeaks c.reversed.moves).length := by
    rw [length_feasiblePeaks, hreversed]
    omega
  -- the same move, which joins the same two speeds the other way round
  have hpeak : (feasiblePeaks c.moves.reverse)[i] = (feasiblePeaks c.moves)[j] := by
    simp only [feasiblePeaks_reverse hdrivable, List.getElem_reverse, hpeaks]
  have hjoins := joins_junctionSq h (by omega) hpass
  have hmove := plan_joined h hplan hpass (by omega)
  have hmove' : back.moves[i] = _ := plan_joined (forall_mem_reverse h) hback hpass' hi
  show back.moves[i] = _
  simp only [List.getElem_reverse, List.getElem_map, List.length_map, hplace]
  rw [hmove', hmove, hjoins.mirrored_joined]
  show (feasiblePeaks c.moves.reverse)[i].joined (junctionSq (feasiblePeaks c.moves.reverse) i)
    (junctionSq (feasiblePeaks c.moves.reverse) (i + 1)) = _
  rw [hpeak, junctionSq_reverse hdrivable (by omega), junctionSq_reverse hdrivable (by omega),
    hstart, hstop]

/-- The two unit moves are planned in reverse as well, the slower one first. -/
theorem plan_reversed_pair :
    (∀ m ∈ unitPair.moves, m.IsPlannable) ∧
      ∃ planned, unitPair.plan = .ok planned ∧
        unitPair.reversed.plan = .ok ⟨(planned.moves.map Move.mirrored).reverse⟩ := by
  have hplannable : ∀ m ∈ unitPair.moves, m.IsPlannable := by
    intro m hm
    rcases List.mem_pair.1 hm with rfl | rfl
    · constructor <;> norm_num [Move.unit, minPlannedLength]
    · constructor <;> norm_num [Move.unit, minPlannedLength]
  obtain ⟨planned, hplan, -, hreversed⟩ := plan_reversed unitPair hplannable
  exact ⟨hplannable, planned, hplan, hreversed⟩

end Toolpath
