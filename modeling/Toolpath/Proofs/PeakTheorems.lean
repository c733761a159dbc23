import Mathlib.Tactic.Linarith
import Mathlib.Tactic.Ring
import Mathlib.Tactic.FieldSimp
import Toolpath.Proofs.PlanTheorems

/-!
# Greatest feasible junction speeds

Over the reals the two passes over the peaks solve an optimisation problem. A sequence of squared
speeds at the junctions of a chain is *feasible* when it starts and ends at rest, stays below the
limits of the moves beside each junction, and changes over every move by no more than its `gain`,
twice its acceleration times its length. The sequence that the planner uses is feasible, and no
feasible sequence is greater at any junction.

Each pass has one recurrence, `lowerPeaks_peakSq` going forth and `feasiblePeaks_peakSq` going
back. That the second pass keeps what the first one established is `peakSq_le_before`.
-/

namespace Toolpath

open Scalar

/-! ## Moves that can be driven -/

/-- The change of squared speed that the acceleration of a move allows over its length. -/
noncomputable def Move.gain (m : Move ℝ) : ℝ := 2 * m.maxAccel * m.length

/-- A move that can speed up, with neither a negative length nor a negative limit. -/
structure Move.IsDrivable (m : Move ℝ) : Prop where
  accel_pos : 0 < m.maxAccel
  length_nonneg : 0 ≤ m.length
  peak_nonneg : 0 ≤ m.peakSq

theorem Move.IsDrivable.gain_nonneg {m : Move ℝ} (h : m.IsDrivable) : 0 ≤ m.gain :=
  mul_nonneg (mul_nonneg zero_le_two h.accel_pos.le) h.length_nonneg

theorem Move.Lowered.gain {m n : Move ℝ} (h : m.Lowered n) : n.gain = m.gain := by
  rw [Move.gain, h.maxAccel, h.length, Move.gain]

/-- Entered with a squared speed, a move reaches at most that and its gain. -/
theorem Move.IsDrivable.lowerPeak_peakSq {m : Move ℝ} (h : m.IsDrivable) (entrySq : ℝ) :
    (m.lowerPeak entrySq).peakSq = min m.peakSq (entrySq + m.gain) := by
  have ha := h.accel_pos
  have htwo : (0.0 : ℝ) < 2.0 * m.maxAccel := by norm_num; exact ha
  -- the ramp before the move and the move itself, turned back into a squared speed
  have hramp : 2.0 * m.maxAccel * (entrySq / (2.0 * m.maxAccel) + m.length)
      = entrySq + m.gain := by
    unfold Move.gain
    field_simp
    norm_num
    ring
  unfold Move.lowerPeak
  simp only [least_eq_min, if_pos htwo, hramp]

theorem boundarySq_eq (neighbour : Option ℝ) {peakSq : ℝ} (h : 0 ≤ peakSq) :
    boundarySq neighbour peakSq = min (neighbour.getD 0) peakSq := by
  cases neighbour with
  | none =>
    rw [Option.getD_none, min_eq_left h]
    norm_num [boundarySq]
  | some other => exact least_eq_min other peakSq

/-- Lowered by the peak beside it, a move reaches at most that peak and its gain. -/
theorem Move.IsDrivable.lowerPeak_boundary {m : Move ℝ} (h : m.IsDrivable) (neighbour : Option ℝ) :
    (m.lowerPeak (boundarySq neighbour m.peakSq)).peakSq
      = min m.peakSq (neighbour.getD 0 + m.gain) := by
  have hgain := h.gain_nonneg
  rw [h.lowerPeak_peakSq, boundarySq_eq neighbour h.peak_nonneg, ← min_add_add_right,
    min_left_comm, min_eq_left (le_add_of_nonneg_right hgain), min_comm]

/-! ## The two recurrences -/

section Recurrences

variable {moves : List (Move ℝ)}

/-- Lowering leaves drivable moves drivable. -/
theorem isDrivable_lowerPeaks {before : Option ℝ} (hbefore : 0 ≤ before.getD 0)
    (h : ∀ m ∈ moves, m.IsDrivable) : ∀ m ∈ lowerPeaks before moves, m.IsDrivable := by
  induction moves generalizing before with
  | nil => simp [lowerPeaks]
  | cons m rest ih =>
    have hm := h m List.mem_cons_self
    have hpeak : 0 ≤ (m.lowerPeak (boundarySq before m.peakSq)).peakSq := by
      rw [hm.lowerPeak_boundary]
      exact le_min hm.peak_nonneg (add_nonneg hbefore hm.gain_nonneg)
    rw [lowerPeaks_cons, List.forall_mem_cons]
    exact ⟨⟨hm.accel_pos, hm.length_nonneg, hpeak⟩,
      ih hpeak fun n hn => h n (List.mem_cons_of_mem m hn)⟩

theorem isDrivable_feasiblePeaks (h : ∀ m ∈ moves, m.IsDrivable) :
    ∀ m ∈ feasiblePeaks moves, m.IsDrivable := by
  have hforth : ∀ m ∈ (lowerPeaks none moves).reverse, m.IsDrivable := fun m hm =>
    isDrivable_lowerPeaks le_rfl h m (List.mem_reverse.1 hm)
  have hback : ∀ m ∈ lowerPeaks none (lowerPeaks none moves).reverse, m.IsDrivable :=
    isDrivable_lowerPeaks le_rfl hforth
  exact fun m hm => hback m (List.mem_reverse.1 hm)

/-- Going forth, every peak is lowered to what is reached from the peak before it. -/
theorem lowerPeaks_peakSq (h : ∀ m ∈ moves, m.IsDrivable) {i : ℕ} (hi : i < moves.length)
    (hi' : i < (lowerPeaks none moves).length) :
    (lowerPeaks none moves)[i].peakSq
      = min moves[i].peakSq
          ((peakBefore none (lowerPeaks none moves) i).getD 0 + moves[i].gain) := by
  rw [lowerPeaks_getElem none moves hi hi', (h _ (List.getElem_mem hi)).lowerPeak_boundary]

/-- Going back, every peak is lowered to what can still be stopped by the peak behind it. -/
theorem feasiblePeaks_peakSq (h : ∀ m ∈ moves, m.IsDrivable) {i : ℕ} (hi : i < moves.length)
    (hforth : i < (lowerPeaks none moves).length) (hback : i < (feasiblePeaks moves).length) :
    (feasiblePeaks moves)[i].peakSq
      = min (lowerPeaks none moves)[i].peakSq
          ((peakAfter (feasiblePeaks moves) i).getD 0 + moves[i].gain) := by
  have hlowered : moves[i].Lowered (lowerPeaks none moves)[i] :=
    (lowered_lowerPeaks none (List.forall₂_same.2 fun _ _ => rfl)).get hi hforth
  have hdrivable : (lowerPeaks none moves)[i].IsDrivable :=
    isDrivable_lowerPeaks le_rfl h _ (List.getElem_mem hforth)
  rw [feasiblePeaks_getElem moves hforth hback, hdrivable.lowerPeak_boundary, hlowered.gain]

/-- The passes only lower peaks. -/
theorem feasiblePeaks_le (h : ∀ m ∈ moves, m.IsDrivable) {i : ℕ} (hi : i < moves.length)
    (hback : i < (feasiblePeaks moves).length) :
    (feasiblePeaks moves)[i].peakSq ≤ moves[i].peakSq := by
  have hforth : i < (lowerPeaks none moves).length := by rwa [length_lowerPeaks]
  rw [feasiblePeaks_peakSq h hi hforth hback, lowerPeaks_peakSq h hi hforth]
  exact (min_le_left _ _).trans (min_le_left _ _)

/-- After both passes a peak can be stopped before the peak behind it. -/
theorem peakSq_le_after (h : ∀ m ∈ moves, m.IsDrivable) {i : ℕ} (hi : i < moves.length)
    (hback : i < (feasiblePeaks moves).length) :
    (feasiblePeaks moves)[i].peakSq
      ≤ (peakAfter (feasiblePeaks moves) i).getD 0 + moves[i].gain := by
  have hforth : i < (lowerPeaks none moves).length := by rwa [length_lowerPeaks]
  rw [feasiblePeaks_peakSq h hi hforth hback]
  exact min_le_right _ _

/-- After both passes a peak can still be reached from the peak in front of it. -/
theorem peakSq_le_before (h : ∀ m ∈ moves, m.IsDrivable) {i : ℕ} (hi : i < moves.length)
    (hback : i < (feasiblePeaks moves).length) :
    (feasiblePeaks moves)[i].peakSq
      ≤ (peakBefore none (feasiblePeaks moves) i).getD 0 + moves[i].gain := by
  have hlen := length_feasiblePeaks moves
  have hlen' := length_lowerPeaks none moves
  have hforth : i < (lowerPeaks none moves).length := by omega
  have hgain := (h _ (List.getElem_mem hi)).gain_nonneg
  -- the forward pass has established this for its own peaks, which are not lower
  have hreached : (feasiblePeaks moves)[i].peakSq
      ≤ (peakBefore none (lowerPeaks none moves) i).getD 0 + moves[i].gain := by
    rw [feasiblePeaks_peakSq h hi hforth hback, lowerPeaks_peakSq h hi hforth]
    exact (min_le_left _ _).trans (min_le_right _ _)
  cases i with
  | zero => exact hreached
  | succ j =>
    have hj : j < moves.length := by omega
    have hjback : j < (feasiblePeaks moves).length := by omega
    have hjforth : j < (lowerPeaks none moves).length := by omega
    have hjgain := (h _ (List.getElem_mem hj)).gain_nonneg
    rw [peakBefore, List.getElem?_eq_getElem hjforth] at hreached
    rw [peakBefore, List.getElem?_eq_getElem hjback]
    have hprev := feasiblePeaks_peakSq h hj hjforth hjback
    rw [peakAfter, List.getElem?_eq_getElem hback] at hprev
    simp only [Option.map_some, Option.getD_some] at *
    -- the peak in front was lowered for the sake of this one, or not at all
    rw [hprev, ← min_add_add_right]
    exact le_min hreached (by linarith)

end Recurrences

/-! ## Junctions -/

/-- The squared speed at a junction of a chain: rest at its two ends, else the lesser of the
peaks on both sides. -/
noncomputable def junctionSq (moves : List (Move ℝ)) (i : ℕ) : ℝ :=
  match peakBefore none moves i, moves[i]? with
  | some before, some after => min before after.peakSq
  | _, _ => 0

section Junctions

variable {moves : List (Move ℝ)} {i : ℕ}

theorem junctionSq_zero (moves : List (Move ℝ)) : junctionSq moves 0 = 0 := rfl

theorem junctionSq_length (moves : List (Move ℝ)) : junctionSq moves moves.length = 0 := by
  unfold junctionSq
  rw [List.getElem?_eq_none le_rfl]
  cases peakBefore none moves moves.length <;> rfl

theorem junctionSq_succ (hi : i + 1 < moves.length) :
    junctionSq moves (i + 1) = min moves[i].peakSq moves[i + 1].peakSq := by
  have hi' : i < moves.length := by omega
  simp only [junctionSq, peakBefore, List.getElem?_eq_getElem hi, List.getElem?_eq_getElem hi',
    Option.map_some]

theorem junctionSq_nonneg (h : ∀ m ∈ moves, 0 ≤ m.peakSq) (i : ℕ) : 0 ≤ junctionSq moves i := by
  rcases Nat.lt_or_ge i moves.length with hi | hi
  · cases i with
    | zero => exact le_of_eq (junctionSq_zero moves).symm
    | succ j =>
      rw [junctionSq_succ hi]
      exact le_min (h _ (List.getElem_mem _)) (h _ (List.getElem_mem hi))
  · unfold junctionSq
    rw [List.getElem?_eq_none hi]
    cases peakBefore none moves i <;> exact le_rfl

theorem junctionSq_entry (hi : i < moves.length) (hpeak : 0 ≤ moves[i].peakSq) :
    junctionSq moves i = min ((peakBefore none moves i).getD 0) moves[i].peakSq := by
  cases i with
  | zero => exact (min_eq_left hpeak).symm
  | succ j =>
    have hj : j < moves.length := by omega
    rw [junctionSq_succ hi, peakBefore, List.getElem?_eq_getElem hj]
    rfl

theorem junctionSq_exit (hi : i < moves.length) (hpeak : 0 ≤ moves[i].peakSq) :
    junctionSq moves (i + 1) = min ((peakAfter moves i).getD 0) moves[i].peakSq := by
  rcases Nat.lt_or_ge (i + 1) moves.length with hnext | hlast
  · rw [junctionSq_succ hnext, peakAfter, List.getElem?_eq_getElem hnext, min_comm]
    rfl
  · have hend : i + 1 = moves.length := by omega
    rw [peakAfter, List.getElem?_eq_none hlast, hend, junctionSq_length]
    exact (min_eq_left hpeak).symm

theorem boundarySq_entry (hi : i < moves.length) (hpeak : 0 ≤ moves[i].peakSq) :
    boundarySq (peakBefore none moves i) moves[i].peakSq = junctionSq moves i := by
  rw [boundarySq_eq _ hpeak, junctionSq_entry hi hpeak]

theorem boundarySq_exit (hi : i < moves.length) (hpeak : 0 ≤ moves[i].peakSq) :
    boundarySq (peakAfter moves i) moves[i].peakSq = junctionSq moves (i + 1) := by
  rw [boundarySq_eq _ hpeak, junctionSq_exit hi hpeak]

/-- Between the two junctions of a move the squared speed changes by no more than its gain. -/
theorem abs_junctionSq_sub_le (h : ∀ m ∈ moves, m.IsDrivable) (hi : i < moves.length) :
    |junctionSq (feasiblePeaks moves) (i + 1) - junctionSq (feasiblePeaks moves) i|
      ≤ moves[i].gain := by
  have hi' : i < (feasiblePeaks moves).length := by rwa [length_feasiblePeaks]
  have hpeak := (isDrivable_feasiblePeaks h _ (List.getElem_mem hi')).peak_nonneg
  have hgain := (h _ (List.getElem_mem hi)).gain_nonneg
  have hbefore := peakSq_le_before h hi hi'
  have hafter := peakSq_le_after h hi hi'
  rw [junctionSq_entry hi' hpeak, junctionSq_exit hi' hpeak, abs_sub_le_iff]
  constructor
  · rw [sub_le_iff_le_add', ← min_add_add_right]
    exact (min_le_right _ _).trans (le_min hbefore (by linarith))
  · rw [sub_le_iff_le_add', ← min_add_add_right]
    exact (min_le_right _ _).trans (le_min hafter (by linarith))

end Junctions

/-! ## Feasible sequences -/

/-- Squared speeds at the junctions of a chain that its limits and its accelerations allow, from
rest to rest. -/
structure IsFeasible (moves : List (Move ℝ)) (speedSq : ℕ → ℝ) : Prop where
  start : speedSq 0 = 0
  stop : speedSq moves.length = 0
  capped : ∀ (i : ℕ) (_ : i + 1 < moves.length),
    speedSq (i + 1) ≤ min moves[i].peakSq moves[i + 1].peakSq
  ramp : ∀ (i : ℕ) (_ : i < moves.length), |speedSq (i + 1) - speedSq i| ≤ moves[i].gain

section Feasible

variable {moves : List (Move ℝ)}

/-- The speeds that the planner uses are feasible. -/
theorem isFeasible_junctionSq (h : ∀ m ∈ moves, m.IsDrivable) :
    IsFeasible moves (junctionSq (feasiblePeaks moves)) where
  start := junctionSq_zero _
  stop := by rw [← length_feasiblePeaks moves, junctionSq_length]
  capped i hi := by
    have hi' : i + 1 < (feasiblePeaks moves).length := by rwa [length_feasiblePeaks]
    rw [junctionSq_succ hi']
    exact min_le_min (feasiblePeaks_le h _ _) (feasiblePeaks_le h _ _)
  ramp _ hi := abs_junctionSq_sub_le h hi

namespace IsFeasible

variable {speedSq : ℕ → ℝ}

/-- A move is entered and left below its limit. -/
theorem le_peakSq (hs : IsFeasible moves speedSq) (h : ∀ m ∈ moves, m.IsDrivable) {i : ℕ}
    (hi : i < moves.length) :
    speedSq i ≤ moves[i].peakSq ∧ speedSq (i + 1) ≤ moves[i].peakSq := by
  have hpeak := (h _ (List.getElem_mem hi)).peak_nonneg
  constructor
  · cases i with
    | zero => rwa [hs.start]
    | succ j => exact (hs.capped j hi).trans (min_le_right _ _)
  · rcases Nat.lt_or_ge (i + 1) moves.length with hnext | hlast
    · exact (hs.capped i hnext).trans (min_le_left _ _)
    · have hend : i + 1 = moves.length := by omega
      rwa [hend, hs.stop]

/-- The forward pass leaves room for every feasible sequence. -/
theorem le_lowerPeaks (hs : IsFeasible moves speedSq) (h : ∀ m ∈ moves, m.IsDrivable) {i : ℕ}
    (hi : i < moves.length) (hi' : i < (lowerPeaks none moves).length) :
    speedSq i ≤ (lowerPeaks none moves)[i].peakSq ∧
      speedSq (i + 1) ≤ (lowerPeaks none moves)[i].peakSq := by
  induction i with
  | zero =>
    have hcap := hs.le_peakSq h hi
    have hgain := (h _ (List.getElem_mem hi)).gain_nonneg
    have hramp := abs_sub_le_iff.1 (hs.ramp 0 hi)
    have hstart := hs.start
    rw [lowerPeaks_peakSq h hi hi', peakBefore, Option.getD_none]
    exact ⟨le_min hcap.1 (by linarith), le_min hcap.2 (by linarith)⟩
  | succ j ih =>
    have hj : j < moves.length := by omega
    have hj' : j < (lowerPeaks none moves).length := by omega
    have hentry := (ih hj hj').2
    have hcap := hs.le_peakSq h hi
    have hgain := (h _ (List.getElem_mem hi)).gain_nonneg
    have hramp := abs_sub_le_iff.1 (hs.ramp (j + 1) hi)
    rw [lowerPeaks_peakSq h hi hi', peakBefore, List.getElem?_eq_getElem hj', Option.map_some,
      Option.getD_some]
    exact ⟨le_min hcap.1 (by linarith), le_min hcap.2 (by linarith)⟩

/-- So does the backward pass; here the induction runs from the last move to the first. -/
theorem le_feasiblePeaks (hs : IsFeasible moves speedSq) (h : ∀ m ∈ moves, m.IsDrivable) {i : ℕ}
    (hi : i < moves.length) (hi' : i < (feasiblePeaks moves).length) :
    speedSq i ≤ (feasiblePeaks moves)[i].peakSq ∧
      speedSq (i + 1) ≤ (feasiblePeaks moves)[i].peakSq := by
  obtain ⟨d, hd⟩ : ∃ d, i + d + 1 = moves.length := ⟨moves.length - i - 1, by omega⟩
  have hforth : i < (lowerPeaks none moves).length := by rwa [length_lowerPeaks]
  have hcap := hs.le_lowerPeaks h hi hforth
  have hgain := (h _ (List.getElem_mem hi)).gain_nonneg
  have hramp := abs_sub_le_iff.1 (hs.ramp i hi)
  -- the induction is on the count of moves behind this one
  have hexit : speedSq (i + 1) ≤ (peakAfter (feasiblePeaks moves) i).getD 0 := by
    induction d generalizing i with
    | zero =>
      have hend : i + 1 = moves.length := by omega
      rw [peakAfter, List.getElem?_eq_none (by rw [length_feasiblePeaks]; omega), hend, hs.stop]
      rfl
    | succ d ih =>
      have hnext : i + 1 < moves.length := by omega
      have hnext' : i + 1 < (feasiblePeaks moves).length := by rwa [length_feasiblePeaks]
      have hnextforth : i + 1 < (lowerPeaks none moves).length := by rwa [length_lowerPeaks]
      have hnextcap := hs.le_lowerPeaks h hnext hnextforth
      have hnextgain := (h _ (List.getElem_mem hnext)).gain_nonneg
      have hnextramp := abs_sub_le_iff.1 (hs.ramp (i + 1) hnext)
      have hnextexit := ih hnext hnext' (by omega) hnextforth hnextcap hnextgain hnextramp
      rw [peakAfter, List.getElem?_eq_getElem hnext', Option.map_some, Option.getD_some,
        feasiblePeaks_peakSq h hnext hnextforth hnext']
      exact le_min hnextcap.1 (by linarith)
  rw [feasiblePeaks_peakSq h hi hforth hi']
  exact ⟨le_min hcap.1 (by linarith), le_min hcap.2 (by linarith)⟩

end IsFeasible

/-- No feasible sequence is greater at a junction than the speeds that the planner uses. -/
theorem IsFeasible.le_junctionSq {speedSq : ℕ → ℝ} (hs : IsFeasible moves speedSq)
    (h : ∀ m ∈ moves, m.IsDrivable) {i : ℕ} (hi : i ≤ moves.length) :
    speedSq i ≤ junctionSq (feasiblePeaks moves) i := by
  have hlen := length_feasiblePeaks moves
  cases i with
  | zero => rw [hs.start, junctionSq_zero]
  | succ j =>
    have hj : j < moves.length := by omega
    have hj' : j < (feasiblePeaks moves).length := by omega
    -- between two moves both peaks bound the speed; at the end both speeds are rest
    rcases Nat.lt_or_ge (j + 1) moves.length with hnext | hlast
    · have hnext' : j + 1 < (feasiblePeaks moves).length := by omega
      rw [junctionSq_succ hnext']
      exact le_min (hs.le_feasiblePeaks h hj hj').2 (hs.le_feasiblePeaks h hnext hnext').1
    · have hend : j + 1 = moves.length := by omega
      have hend' : j + 1 = (feasiblePeaks moves).length := by omega
      apply le_of_eq
      calc speedSq (j + 1) = 0 := by rw [hend, hs.stop]
        _ = junctionSq (feasiblePeaks moves) (j + 1) := by rw [hend', junctionSq_length]

end Feasible

/-! ## Planned chains -/

/-- Every move of a planned chain has the profile between its junction speeds. -/
theorem plan_junctionSq {c planned : Chain ℝ} (h : ∀ m ∈ c.moves, m.IsDrivable)
    (hplan : c.plan = .ok planned) {i : ℕ} (hi : i < (feasiblePeaks c.moves).length)
    (hi' : i < planned.moves.length) :
    (feasiblePeaks c.moves)[i].withProfile (junctionSq (feasiblePeaks c.moves) i)
      (junctionSq (feasiblePeaks c.moves) (i + 1)) = .ok planned.moves[i] := by
  obtain ⟨-, hget⟩ := profileMoves_getElem (Chain.plan_eq_ok.1 hplan)
  have hpeak := (isDrivable_feasiblePeaks h _ (List.getElem_mem hi)).peak_nonneg
  have hmove := hget i hi hi'
  rwa [boundarySq_entry hi hpeak, boundarySq_exit hi hpeak] at hmove

/-- The planner drives a chain at the greatest junction speeds that its limits and accelerations
allow: the moves are planned between speeds that are feasible, and every other feasible sequence
is at most as fast at each junction. -/
theorem plan_isGreatest_feasible (c : Chain ℝ) (h : ∀ m ∈ c.moves, m.IsDrivable) :
    (∃ planned, c.plan = .ok planned ∧ planned.moves.length = c.moves.length ∧
      ∀ (i : ℕ) (_ : i < (feasiblePeaks c.moves).length) (_ : i < planned.moves.length),
        (feasiblePeaks c.moves)[i].withProfile (junctionSq (feasiblePeaks c.moves) i)
          (junctionSq (feasiblePeaks c.moves) (i + 1)) = .ok planned.moves[i]) ∧
    IsFeasible c.moves (junctionSq (feasiblePeaks c.moves)) ∧
    ∀ speedSq, IsFeasible c.moves speedSq → ∀ i ≤ c.moves.length,
      speedSq i ≤ junctionSq (feasiblePeaks c.moves) i := by
  obtain ⟨planned, hplan⟩ := exists_plan c
  obtain ⟨hlen, -⟩ := replanned_plan hplan
  refine ⟨⟨planned, hplan, hlen, fun i hi hi' => plan_junctionSq h hplan hi hi'⟩, ?_, ?_⟩
  · exact isFeasible_junctionSq h
  · intro speedSq hs i hi
    exact hs.le_junctionSq h hi

/-- A straight move of unit length and acceleration. -/
noncomputable def Move.unit (peakSq : ℝ) : Move ℝ :=
  { Move.make .line .zero ⟨1, 0, 0⟩ 60 1 .normal with length := 1, peakSq, maxAccel := 1 }

/-- Two unit moves, of which the second has the lower limit. -/
noncomputable def unitPair : Chain ℝ := ⟨[.unit 9, .unit 1]⟩

/-- Between the two unit moves no feasible speed is greater than the planned one. -/
theorem plan_isGreatest_feasible_pair :
    (∀ m ∈ unitPair.moves, m.IsDrivable) ∧
      ∀ speedSq, IsFeasible unitPair.moves speedSq →
        speedSq 1 ≤ junctionSq (feasiblePeaks unitPair.moves) 1 := by
  have hdrivable : ∀ m ∈ unitPair.moves, m.IsDrivable := by
    intro m hm
    rcases List.mem_pair.1 hm with rfl | rfl
    · constructor <;> norm_num [Move.unit]
    · constructor <;> norm_num [Move.unit]
  obtain ⟨-, -, hgreatest⟩ := plan_isGreatest_feasible unitPair hdrivable
  exact ⟨hdrivable, fun speedSq hs => hgreatest speedSq hs 1 (by decide)⟩

end Toolpath
