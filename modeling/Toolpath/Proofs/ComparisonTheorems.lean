import Toolpath.Proofs.ArrivalTheorems

/-!
# Raised limits

Two moves of one length are compared: of the second, every limit is at least a share of that of the
first, `Move.IsRaised`; with the whole as the share it is not below it. Over the reals this carries
over from the limits of two chains to all that is planned from them.

* Both passes over the peaks keep it (`isRaised_feasiblePeaks`), so the squared speeds at the
  junctions are raised alike (`share_mul_junctionSq_le`), and with them the squared speeds along the
  moves (`Move.IsRaised.speedSqAt_le`).
* Where one plan is nowhere slower than another, no stretch of the way takes more time. Phases of
  two plans begin and end at different places, so this is first shown where two of them overlap
  (`Phase.IsReadBack.mul_timeAt_sub_le`) and then put together (`Covers.monotoneOn`).
* So the moves of the first chain are outrun by those of the second, `isOutrun_plan`.
-/

namespace Toolpath

open Scalar

variable {share : ℝ}

/-! ## Limits -/

/-- A move of the same length whose limits are at least a share of those of another. -/
structure Move.IsRaised (share : ℝ) (m n : Move ℝ) : Prop where
  length_eq : n.length = m.length
  peakSq_le : share * m.peakSq ≤ n.peakSq
  maxAccel_le : share * m.maxAccel ≤ n.maxAccel

namespace Move.IsRaised

variable {m n : Move ℝ}

theorem gain_le (h : m.IsRaised share n) (hlength : 0 ≤ m.length) :
    share * m.gain ≤ n.gain := by
  have hmul := mul_le_mul_of_nonneg_right h.maxAccel_le hlength
  rw [Move.gain, Move.gain, h.length_eq]
  linarith

/-- Peaks that are raised are lowered to raised peaks, behind a peak that is raised as well. -/
theorem lowerPeak (h : m.IsRaised share n) (hshare : 0 ≤ share) (hm : m.IsDrivable)
    (hn : n.IsDrivable) {before before' : Option ℝ}
    (hbefore : share * before.getD 0 ≤ before'.getD 0) :
    (m.lowerPeak (boundarySq before m.peakSq)).IsRaised share
      (n.lowerPeak (boundarySq before' n.peakSq)) where
  length_eq := h.length_eq
  peakSq_le := by
    have hgain := h.gain_le hm.length_nonneg
    rw [hm.lowerPeak_boundary, hn.lowerPeak_boundary, mul_min_of_nonneg _ _ hshare]
    exact min_le_min h.peakSq_le (by linarith)
  maxAccel_le := h.maxAccel_le

end Move.IsRaised

/-- A pass over raised peaks leaves raised peaks. -/
theorem isRaised_lowerPeaks (hshare : 0 ≤ share) {moves faster : List (Move ℝ)}
    (h : List.Forall₂ (Move.IsRaised share) moves faster) (hmoves : ∀ m ∈ moves, m.IsDrivable)
    (hfaster : ∀ n ∈ faster, n.IsDrivable) {before before' : Option ℝ}
    (hbefore : share * before.getD 0 ≤ before'.getD 0) :
    List.Forall₂ (Move.IsRaised share) (lowerPeaks before moves) (lowerPeaks before' faster) := by
  induction h generalizing before before' with
  | nil => exact .nil
  | cons h _ ih =>
    obtain ⟨hm, hmoves⟩ := List.forall_mem_cons.1 hmoves
    obtain ⟨hn, hfaster⟩ := List.forall_mem_cons.1 hfaster
    have hlowered := h.lowerPeak hshare hm hn hbefore
    rw [lowerPeaks_cons, lowerPeaks_cons]
    exact .cons hlowered (ih hmoves hfaster hlowered.peakSq_le)

/-- So do both passes. -/
theorem isRaised_feasiblePeaks (hshare : 0 ≤ share) {moves faster : List (Move ℝ)}
    (h : List.Forall₂ (Move.IsRaised share) moves faster) (hmoves : ∀ m ∈ moves, m.IsDrivable)
    (hfaster : ∀ n ∈ faster, n.IsDrivable) :
    List.Forall₂ (Move.IsRaised share) (feasiblePeaks moves) (feasiblePeaks faster) := by
  have hrest : share * (none : Option ℝ).getD 0 ≤ (none : Option ℝ).getD 0 := by simp
  have hforth := isRaised_lowerPeaks hshare h hmoves hfaster hrest
  have hdrivable : ∀ {moves : List (Move ℝ)}, (∀ m ∈ moves, m.IsDrivable) →
      ∀ m ∈ (lowerPeaks none moves).reverse, m.IsDrivable := fun hmoves m hm =>
    isDrivable_lowerPeaks le_rfl hmoves m (List.mem_reverse.1 hm)
  rw [feasiblePeaks, feasiblePeaks, List.forall₂_reverse_iff]
  exact isRaised_lowerPeaks hshare (List.forall₂_reverse_iff.2 hforth) (hdrivable hmoves)
    (hdrivable hfaster) hrest

/-- The speeds at the junctions of raised peaks are raised. -/
theorem share_mul_junctionSq_le (hshare : 0 ≤ share) {moves faster : List (Move ℝ)}
    (h : List.Forall₂ (Move.IsRaised share) moves faster) {i : ℕ} (hi : i ≤ moves.length) :
    share * junctionSq moves i ≤ junctionSq faster i := by
  have hlen := h.length_eq
  cases i with
  | zero => rw [junctionSq_zero, junctionSq_zero, mul_zero]
  | succ i =>
    by_cases hlast : i + 1 = moves.length
    · have hlast' : i + 1 = faster.length := by omega
      have hzero : junctionSq moves (i + 1) = 0 := by rw [hlast, junctionSq_length]
      have hzero' : junctionSq faster (i + 1) = 0 := by rw [hlast', junctionSq_length]
      rw [hzero, hzero', mul_zero]
    · have hfirst : share * moves[i].peakSq ≤ faster[i].peakSq :=
        (h.get (by omega) (by omega)).peakSq_le
      have hsecond : share * moves[i + 1].peakSq ≤ faster[i + 1].peakSq :=
        (h.get (by omega) (by omega)).peakSq_le
      rw [junctionSq_succ (by omega), junctionSq_succ (by omega), mul_min_of_nonneg _ _ hshare]
      exact min_le_min hfirst hsecond

/-! ## Speeds -/

/-- Between raised speeds at its ends a raised move is passed at raised speeds. -/
theorem Move.IsRaised.speedSqAt_le {m n : Move ℝ} (h : m.IsRaised share n) (hshare : 0 ≤ share)
    {entrySq exitSq entrySq' exitSq' : ℝ} (hentry : share * entrySq ≤ entrySq')
    (hexit : share * exitSq ≤ exitSq') {x : ℝ} (hx : x ∈ Set.Icc 0 m.length) :
    share * (m.joined entrySq exitSq).speedSqAt entrySq exitSq x ≤
      (n.joined entrySq' exitSq').speedSqAt entrySq' exitSq' x := by
  have hgain := h.gain_le (hx.1.trans hx.2)
  have hforth := mul_le_mul_of_nonneg_right h.maxAccel_le hx.1
  have hback := mul_le_mul_of_nonneg_right h.maxAccel_le (sub_nonneg.2 hx.2)
  have hcrest : share * m.crestSq entrySq exitSq ≤ n.crestSq entrySq' exitSq' := by
    rw [Move.crestSq, Move.crestSq, mul_min_of_nonneg _ _ hshare]
    exact min_le_min h.peakSq_le (by linarith)
  rw [Move.Joins.speedSqAt_joined, Move.Joins.speedSqAt_joined, mul_min_of_nonneg _ _ hshare,
    mul_min_of_nonneg _ _ hshare, h.length_eq]
  exact min_le_min hcrest (min_le_min (by linarith) (by linarith))

/-! ## Times -/

section Times

variable {m n : Move ℝ} {speedSq speedSq' : ℝ → ℝ}

/-- Where it runs at raised speeds, a phase takes less time over the same stretch. -/
theorem Phase.IsReadBack.mul_timeAt_sub_le {p q : Phase ℝ} (hp : p.IsReadBack m speedSq)
    (hq : q.IsReadBack n speedSq') (hshare : 0 ≤ share) {x y : ℝ}
    (hpx : x ∈ Set.Icc p.start p.stop) (hpy : y ∈ Set.Icc p.start p.stop)
    (hqx : x ∈ Set.Icc q.start q.stop) (hqy : y ∈ Set.Icc q.start q.stop) (hxy : x ≤ y)
    (hx : share * speedSq x ≤ speedSq' x) (hy : share * speedSq y ≤ speedSq' y) :
    √share * (q.timeAt n y - q.timeAt n x) ≤ p.timeAt m y - p.timeAt m x := by
  rcases hxy.eq_or_lt with rfl | hlt
  · rw [sub_self, sub_self, mul_zero]
  have hsqrt : ∀ z, share * speedSq z ≤ speedSq' z → √share * √(speedSq z) ≤ √(speedSq' z) := by
    intro z hz
    rw [← Real.sqrt_mul hshare]
    exact Real.sqrt_le_sqrt hz
  have htravel := hp.travel x hpx y hpy
  have htravel' := hq.travel x hqx y hqy
  have htime : 0 < p.timeAt m y - p.timeAt m x := sub_pos.2 (hp.strictMonoOn hpx hpy hlt)
  have htime' : 0 < q.timeAt n y - q.timeAt n x := sub_pos.2 (hq.strictMonoOn hqx hqy hlt)
  -- over a shared way the times compare inversely to the mean speeds
  have hmean : √share * ((√(speedSq x) + √(speedSq y)) / 2) ≤
      (√(speedSq' x) + √(speedSq' y)) / 2 := by
    have hxspeed := hsqrt x hx
    have hyspeed := hsqrt y hy
    linarith
  have hspeed : 0 < (√(speedSq x) + √(speedSq y)) / 2 := by
    refine pos_of_mul_pos_left ?_ htime.le
    rw [htravel]
    linarith
  apply le_of_mul_le_mul_left _ hspeed
  calc (√(speedSq x) + √(speedSq y)) / 2 * (√share * (q.timeAt n y - q.timeAt n x))
      = √share * ((√(speedSq x) + √(speedSq y)) / 2) * (q.timeAt n y - q.timeAt n x) := by ring
    _ ≤ (√(speedSq' x) + √(speedSq' y)) / 2 * (q.timeAt n y - q.timeAt n x) :=
        mul_le_mul_of_nonneg_right hmean htime'.le
    _ = (√(speedSq x) + √(speedSq y)) / 2 * (p.timeAt m y - p.timeAt m x) := by
        rw [htravel, htravel']

variable {phases others : List (Phase ℝ)} {start stop : ℝ}

/-- What grows along every phase grows along the way, also on a part of it. -/
theorem Covers.monotoneOn (h : Covers phases start stop) {f : ℝ → ℝ} {part : Set ℝ}
    (hpart : part.OrdConnected)
    (hgrow : ∀ p ∈ phases, MonotoneOn f (Set.Icc p.start p.stop ∩ part)) :
    MonotoneOn f (Set.Icc start stop ∩ part) := by
  induction phases generalizing start with
  | nil =>
    obtain rfl : start = stop := h
    rw [Set.Icc_self]
    exact (Set.subsingleton_singleton.anti Set.inter_subset_left).monotoneOn _
  | cons q rest ih =>
    obtain ⟨rfl, hlt, hrest⟩ := h
    obtain ⟨hfirst, hothers⟩ := List.forall_mem_cons.1 hgrow
    have hbehind := ih hrest hothers
    intro x hx y hy hxy
    rcases le_total y q.stop with hyq | hyq
    · exact hfirst ⟨⟨hx.1.1, hxy.trans hyq⟩, hx.2⟩ ⟨⟨hy.1.1, hyq⟩, hy.2⟩ hxy
    rcases le_total q.stop x with hxq | hxq
    · exact hbehind ⟨⟨hxq, hx.1.2⟩, hx.2⟩ ⟨⟨hyq, hy.1.2⟩, hy.2⟩ hxy
    · -- the end of the phase lies between the two points
      have hmiddle : q.stop ∈ part := hpart.out hx.2 hy.2 ⟨hxq, hyq⟩
      exact (hfirst ⟨⟨hx.1.1, hxq⟩, hx.2⟩ ⟨⟨hlt.le, le_rfl⟩, hmiddle⟩ hxq).trans
        (hbehind ⟨⟨le_rfl, hrest.le⟩, hmiddle⟩ ⟨⟨hyq, hy.1.2⟩, hy.2⟩ hyq)

/-- At raised speeds the same way takes less time. -/
theorem Covers.sqrt_mul_duration_le (h : Covers phases start stop) (h' : Covers others start stop)
    (hread : ∀ p ∈ phases, p.IsReadBack m speedSq) (hread' : ∀ q ∈ others, q.IsReadBack n speedSq')
    (hshare : 0 ≤ share) (hspeed : ∀ x ∈ Set.Icc start stop, share * speedSq x ≤ speedSq' x) :
    √share * (others.map (·.duration)).sum ≤ (phases.map (·.duration)).sum := by
  -- the lead of the faster one grows along every stretch that both pass in one phase
  let lead := fun x => (phases.map (·.timeAt m x)).sum - √share * (others.map (·.timeAt n x)).sum
  have hboth : ∀ q ∈ others, ∀ p ∈ phases,
      MonotoneOn lead (Set.Icc p.start p.stop ∩ (Set.Icc start stop ∩ Set.Icc q.start q.stop)) := by
    intro q hq p hp x hx y hy hxy
    have hless := (hread p hp).mul_timeAt_sub_le (hread' q hq) hshare hx.1 hy.1 hx.2.2 hy.2.2 hxy
      (hspeed x hx.2.1) (hspeed y hy.2.1)
    have hown := h.sum_timeAt_sub hread hp hx.1 hy.1
    have hother := h'.sum_timeAt_sub hread' hq hx.2.2 hy.2.2
    rw [← hown, ← hother] at hless
    show _ - _ ≤ _ - _
    linarith
  have hlead : MonotoneOn lead (Set.Icc start stop ∩ Set.Icc start stop) := by
    refine h'.monotoneOn Set.ordConnected_Icc fun q hq => ?_
    have hwithin := h.monotoneOn (Set.ordConnected_Icc.inter Set.ordConnected_Icc) (hboth q hq)
    exact hwithin.mono fun x hx => ⟨hx.2, hx.2, hx.1⟩
  have hstart := Set.left_mem_Icc.2 h.le
  have hstop := Set.right_mem_Icc.2 h.le
  have hends : lead start ≤ lead stop := hlead ⟨hstart, hstart⟩ ⟨hstop, hstop⟩ h.le
  simp only [lead] at hends
  rw [h.sum_timeAt_before hread le_rfl, h'.sum_timeAt_before hread' le_rfl,
    h.sum_timeAt_stop hread, h'.sum_timeAt_stop hread', mul_zero, sub_self] at hends
  linarith

end Times

/-! ## Plans -/

/-- The second of two planned moves is passed at raised speeds, in less time. -/
structure Move.IsOutrun (share : ℝ) (m n : Move ℝ) : Prop where
  speed_le : ∀ ratio ∈ Set.Icc (0 : ℝ) 1, ∃ passage passage', m.passageAt ratio = .ok passage ∧
    n.passageAt ratio = .ok passage' ∧ √share * passage.speed ≤ passage'.speed
  duration_le : √share * n.profile.duration ≤ m.profile.duration

theorem Move.IsRaised.isOutrun_joined {m n : Move ℝ} (h : m.IsRaised share n) (hshare : 0 ≤ share)
    {entrySq exitSq entrySq' exitSq' : ℝ} (hm : m.Joins entrySq exitSq)
    (hn : n.Joins entrySq' exitSq') (hentry : share * entrySq ≤ entrySq')
    (hexit : share * exitSq ≤ exitSq') :
    (m.joined entrySq exitSq).IsOutrun share (n.joined entrySq' exitSq') := by
  have hspeedSq : ∀ x ∈ Set.Icc 0 m.length,
      share * (m.joined entrySq exitSq).speedSqAt entrySq exitSq x ≤
        (n.joined entrySq' exitSq').speedSqAt entrySq' exitSq' x := fun x hx =>
    h.speedSqAt_le hshare hentry hexit hx
  constructor
  case speed_le =>
    intro ratio hratio
    obtain ⟨passage, hread⟩ := hm.isReadBack_joined
    obtain ⟨passage', hread'⟩ := hn.isReadBack_joined
    refine ⟨_, _, hread.passageAt_eq ratio hratio, hread'.passageAt_eq ratio hratio, ?_⟩
    have hx : m.length * ratio ∈ Set.Icc 0 m.length :=
      ⟨mul_nonneg hm.length_pos.le hratio.1, mul_le_of_le_one_right hm.length_pos.le hratio.2⟩
    apply le_of_sq_le_sq _ (hread'.speed_nonneg ratio hratio)
    rw [mul_pow, Real.sq_sqrt hshare, hread.speed_sq ratio hratio, hread'.speed_sq ratio hratio]
    have hlength : (n.joined entrySq' exitSq').length = m.length := h.length_eq
    rw [hlength]
    exact hspeedSq _ hx
  case duration_le =>
    -- the phases of both cover one length, at speeds that compare everywhere
    have hcovers := hn.covers_joined
    rw [h.length_eq] at hcovers
    rw [Move.Joins.duration_joined, Move.Joins.duration_joined]
    exact hm.covers_joined.sqrt_mul_duration_le hcovers hm.phase_isReadBack hn.phase_isReadBack
      hshare hspeedSq

/-- Moves without a profile are passed at rest, in no time. -/
theorem Move.isOutrun_rest {m n : Move ℝ} (hm : m.profile = .rest) (hn : n.profile = .rest) :
    m.IsOutrun share n := by
  have hzero : (0.0 : ℝ) = 0 := by norm_num
  have hpassage : ∀ {m : Move ℝ}, m.profile = .rest →
      ∀ ratio, m.passageAt ratio = .ok ⟨0.0, 0.0⟩ := by
    intro m hm ratio
    rw [Move.passageAt, hm]
    rfl
  constructor
  · intro ratio _
    refine ⟨_, _, hpassage hm ratio, hpassage hn ratio, ?_⟩
    rw [hzero, mul_zero]
  · rw [hm, hn]
    show √share * 0.0 ≤ 0.0
    rw [hzero, mul_zero]

/-- Under raised limits a chain is planned to be passed at raised speeds, in less time. -/
theorem isOutrun_plan (hshare : 0 ≤ share) {c d planned planned' : Chain ℝ}
    (h : List.Forall₂ (Move.IsRaised share) c.moves d.moves) (hc : ∀ m ∈ c.moves, m.IsUnderway)
    (hd : ∀ m ∈ d.moves, m.IsUnderway) (hplan : c.plan = .ok planned)
    (hplan' : d.plan = .ok planned') :
    List.Forall₂ (Move.IsOutrun share) planned.moves planned'.moves := by
  have hraised := isRaised_feasiblePeaks hshare h (fun m hm => (hc m hm).isDrivable)
    fun m hm => (hd m hm).isDrivable
  have hlen := length_feasiblePeaks c.moves
  have hlen' := length_feasiblePeaks d.moves
  obtain ⟨hplanned, -⟩ := replanned_plan hplan
  obtain ⟨hplanned', -⟩ := replanned_plan hplan'
  have hsame := h.length_eq
  rw [List.forall₂_iff_get]
  refine ⟨by omega, fun i hi hi' => ?_⟩
  have hback : i < (feasiblePeaks c.moves).length := by omega
  have hback' : i < (feasiblePeaks d.moves).length := by omega
  have hmove : (feasiblePeaks c.moves)[i].IsRaised share (feasiblePeaks d.moves)[i] :=
    hraised.get hback hback'
  have hlength : (feasiblePeaks d.moves)[i].length = (feasiblePeaks c.moves)[i].length :=
    hmove.length_eq
  rw [List.get_eq_getElem, List.get_eq_getElem]
  -- the two moves are equally long, so either both have a profile or none has
  rcases lt_or_ge minPlannedLength (feasiblePeaks c.moves)[i].length with hlong | hshort
  · obtain ⟨hjoins, hjoined⟩ := plan_of_long hc hplan hi hback hlong
    obtain ⟨hjoins', hjoined'⟩ := plan_of_long hd hplan' hi' hback' (hlength ▸ hlong)
    rw [hjoined, hjoined']
    exact hmove.isOutrun_joined hshare hjoins hjoins'
      (share_mul_junctionSq_le hshare hraised hback.le)
      (share_mul_junctionSq_le hshare hraised hback)
  · rw [plan_of_short hc hplan hi hback hshort,
      plan_of_short hd hplan' hi' hback' (hlength ▸ hshort)]
    exact Move.isOutrun_rest rfl rfl

end Toolpath
