import Mathlib.Data.List.Chain
import Mathlib.Data.List.Forall2
import Mathlib.Tactic.NormNum
import Toolpath.Proofs.OrderTheorems

/-!
# Planning a chain, move by move

What the three passes of the planner do to a chain, over any type of numbers:

* the passes over the peaks change nothing but peaks (`Move.Lowered`, `lowered_feasiblePeaks`);
* a move gets a profile unless a bound of its crest is out of order or no number
  (`Move.exists_withProfile_iff`);
* the last pass gives every move the profile between the squared speeds at its two junctions
  (`profileMoves_getElem`), and fails only where one of these profiles does
  (`exists_profileMoves`);
* planning as a whole changes nothing but peaks and profiles (`replanned_plan`), and over the
  reals it always goes through (`exists_plan`).

The speed at a junction is `boundarySq` of the peaks on both sides. `peakBefore` looks up the
peak in front of a move, so that statements about a chain can be made index by index.
-/

namespace Toolpath

open Scalar

/-- A computation in two steps gives a result exactly when both steps do. -/
theorem bind_eq_ok {ε β γ : Type} {x : Except ε β} {f : β → Except ε γ} {c : γ} :
    x >>= f = .ok c ↔ ∃ b, x = .ok b ∧ f b = .ok c := by
  cases x with
  | error e => simp [bind, Except.bind]
  | ok b => simp [bind, Except.bind]

variable {α : Type}

/-! ## Junctions -/

/-- The squared speed at a junction, given the peak on its other side; rest where there is no
move on the other side. -/
def boundarySq [Arithmetic α] (neighbour : Option α) (peakSq : α) : α :=
  match neighbour with
  | none => 0.0
  | some other => Scalar.least other peakSq

/-- The peak in front of the move with index `i`, where `before` is the one in front of all. -/
def peakBefore (before : Option α) (moves : List (Move α)) : ℕ → Option α
  | 0 => before
  | i + 1 => moves[i]?.map (·.peakSq)

/-- The peak behind the move with index `i`. -/
def peakAfter (moves : List (Move α)) (i : ℕ) : Option α := moves[i + 1]?.map (·.peakSq)

theorem peakBefore_cons (before : Option α) (m : Move α) (rest : List (Move α)) (i : ℕ) :
    peakBefore before (m :: rest) (i + 1) = peakBefore (some m.peakSq) rest i := by
  cases i <;> rfl

theorem peakAfter_cons (m : Move α) (rest : List (Move α)) (i : ℕ) :
    peakAfter (m :: rest) (i + 1) = peakAfter rest i := rfl

/-- What holds of all moves holds of the peaks beside one of them. -/
theorem forall_peakBefore {P : α → Prop} {moves : List (Move α)} (h : ∀ m ∈ moves, P m.peakSq)
    (i : ℕ) : ∀ other, peakBefore none moves i = some other → P other := by
  intro other hother
  cases i with
  | zero => cases hother
  | succ i =>
    obtain ⟨m, hm, rfl⟩ := Option.map_eq_some_iff.1 hother
    exact h m (List.mem_of_getElem? hm)

theorem forall_peakAfter {P : α → Prop} {moves : List (Move α)} (h : ∀ m ∈ moves, P m.peakSq)
    (i : ℕ) : ∀ other, peakAfter moves i = some other → P other := by
  intro other hother
  obtain ⟨m, hm, rfl⟩ := Option.map_eq_some_iff.1 hother
  exact h m (List.mem_of_getElem? hm)

/-- Read from its other end, a chain has in front of a move what it had behind it. -/
theorem peakBefore_reverse (moves : List (Move α)) {i : ℕ} (hi : i < moves.length) :
    peakBefore none moves (moves.length - 1 - i) = peakAfter moves.reverse i := by
  rcases hj : moves.length - 1 - i with _ | j
  · rw [peakAfter, List.getElem?_eq_none (by rw [List.length_reverse]; omega)]
    rfl
  · rw [peakAfter, List.getElem?_reverse (by omega), peakBefore]
    congr 2
    omega

/-- One move is another with a different peak. -/
def Move.Lowered (m lowered : Move α) : Prop := lowered = { m with peakSq := lowered.peakSq }

theorem Move.Lowered.trans {m n k : Move α} (h : m.Lowered n) (h' : n.Lowered k) :
    m.Lowered k := by
  rw [Move.Lowered] at *
  rw [h', h]

theorem Move.Lowered.length {m n : Move α} (h : m.Lowered n) : n.length = m.length := by
  rw [h]

theorem Move.Lowered.maxAccel {m n : Move α} (h : m.Lowered n) : n.maxAccel = m.maxAccel := by
  rw [h]

/-! ## Numbers of moves -/

/-- Moves that are numbered in order, from `first` on. -/
def IsNumbered (first : ℕ) (moves : List (Move α)) : Prop :=
  ∀ (k : ℕ) (_ : k < moves.length), moves[k].index = first + k

namespace IsNumbered

variable {first : ℕ} {m : Move α} {moves rest : List (Move α)}

theorem append (h : IsNumbered first (moves ++ rest)) :
    IsNumbered first moves ∧ IsNumbered (first + moves.length) rest := by
  constructor
  · intro k hk
    have hget := h k (by rw [List.length_append]; omega)
    rwa [List.getElem_append_left hk] at hget
  · intro k hk
    have hget := h (moves.length + k) (by rw [List.length_append]; omega)
    rw [List.getElem_append_right (Nat.le_add_right _ _)] at hget
    simp only [Nat.add_sub_cancel_left] at hget
    omega

theorem cons (h : IsNumbered first (m :: rest)) :
    m.index = first ∧ IsNumbered (first + 1) rest := by
  have happend : IsNumbered first ([m] ++ rest) := h
  exact ⟨h 0 (Nat.succ_pos _), happend.append.2⟩

end IsNumbered

variable [Scalar α]

/-! ## Passes over the peaks -/

theorem lowerPeaks_cons (before : Option α) (m : Move α) (rest : List (Move α)) :
    lowerPeaks before (m :: rest) =
      m.lowerPeak (boundarySq before m.peakSq) ::
        lowerPeaks (some (m.lowerPeak (boundarySq before m.peakSq)).peakSq) rest := by
  cases before <;> rfl

@[simp] theorem length_lowerPeaks (before : Option α) (moves : List (Move α)) :
    (lowerPeaks before moves).length = moves.length := by
  induction moves generalizing before with
  | nil => rfl
  | cons m rest ih => rw [lowerPeaks_cons, List.length_cons, ih, List.length_cons]

@[simp] theorem length_feasiblePeaks (moves : List (Move α)) :
    (feasiblePeaks moves).length = moves.length := by
  simp [feasiblePeaks]

/-- A pass lowers every peak by the peak that it has just lowered. -/
theorem lowerPeaks_getElem (before : Option α) (moves : List (Move α)) {i : ℕ}
    (hi : i < moves.length) (hi' : i < (lowerPeaks before moves).length) :
    (lowerPeaks before moves)[i] =
      moves[i].lowerPeak
        (boundarySq (peakBefore before (lowerPeaks before moves) i) moves[i].peakSq) := by
  -- the peak in front changes with every step, so the induction is over all of them
  induction moves generalizing before i with
  | nil => exact absurd hi (Nat.not_lt_zero i)
  | cons m rest ih =>
    cases i with
    | zero => simp only [lowerPeaks_cons, List.getElem_cons_zero, peakBefore]
    | succ i =>
      simp only [lowerPeaks_cons, List.getElem_cons_succ, peakBefore_cons]
      exact ih _ (Nat.lt_of_succ_lt_succ hi) _

/-- A pass from the other end lowers every peak by the lowered peak behind it. -/
theorem lowerPeaks_reverse_getElem (moves : List (Move α)) {i : ℕ} (hi : i < moves.length)
    (hi' : i < (lowerPeaks none moves.reverse).reverse.length) :
    (lowerPeaks none moves.reverse).reverse[i] =
      moves[i].lowerPeak
        (boundarySq (peakAfter (lowerPeaks none moves.reverse).reverse i) moves[i].peakSq) := by
  -- the same move counted from the other end
  have hmirror : moves.length - 1 - (moves.length - 1 - i) = i := by omega
  have hlt : moves.length - 1 - i < moves.reverse.length := by
    rw [List.length_reverse]
    omega
  have hpass := lowerPeaks_getElem none moves.reverse hlt (by rw [length_lowerPeaks]; exact hlt)
  have hback : i < (lowerPeaks none moves.reverse).length := by
    rw [length_lowerPeaks, List.length_reverse]
    exact hi
  have hbefore := peakBefore_reverse _ hback
  rw [length_lowerPeaks, List.length_reverse] at hbefore
  simp only [hbefore, List.getElem_reverse, hmirror] at hpass
  simp only [List.getElem_reverse, length_lowerPeaks, List.length_reverse]
  exact hpass

/-- The backward pass lowers every peak of the forward pass by the lowered peak behind it. -/
theorem feasiblePeaks_getElem (moves : List (Move α)) {i : ℕ}
    (hi : i < (lowerPeaks none moves).length) (hi' : i < (feasiblePeaks moves).length) :
    (feasiblePeaks moves)[i] =
      (lowerPeaks none moves)[i].lowerPeak
        (boundarySq (peakAfter (feasiblePeaks moves) i) (lowerPeaks none moves)[i].peakSq) :=
  lowerPeaks_reverse_getElem (lowerPeaks none moves) hi hi'

/-- A pass changes nothing but peaks. -/
theorem lowered_lowerPeaks (before : Option α) {moves lowered : List (Move α)}
    (h : List.Forall₂ Move.Lowered moves lowered) :
    List.Forall₂ Move.Lowered moves (lowerPeaks before lowered) := by
  induction h generalizing before with
  | nil => exact .nil
  | cons hm _ ih =>
    rw [lowerPeaks_cons]
    exact .cons (hm.trans rfl) (ih _)

/-- Both passes together change nothing but peaks. -/
theorem lowered_feasiblePeaks (moves : List (Move α)) :
    List.Forall₂ Move.Lowered moves (feasiblePeaks moves) := by
  have hforth : List.Forall₂ Move.Lowered moves (lowerPeaks none moves) :=
    lowered_lowerPeaks none (List.forall₂_same.2 fun _ _ => rfl)
  -- the second pass runs over what the first has left, read from the end
  have hback := lowered_lowerPeaks none (List.forall₂_reverse_iff.2 hforth)
  apply List.forall₂_reverse_iff.1
  rwa [feasiblePeaks, List.reverse_reverse]

theorem lowered_getElem (moves : List (Move α)) {i : ℕ} (hi : i < moves.length)
    (hi' : i < (feasiblePeaks moves).length) : moves[i].Lowered (feasiblePeaks moves)[i] :=
  (lowered_feasiblePeaks moves).get hi hi'

/-! ## The profile of a move -/

/-- A move that carries no profile. -/
def Move.AtRest (m : Move α) : Prop := m.length ≤ minPlannedLength ∨ m.maxAccel ≤ 0.0

instance (m : Move α) : Decidable m.AtRest :=
  inferInstanceAs (Decidable (m.length ≤ minPlannedLength ∨ m.maxAccel ≤ 0.0))

theorem Move.Lowered.atRest_iff {m n : Move α} (h : m.Lowered n) : n.AtRest ↔ m.AtRest := by
  rw [Move.AtRest, Move.AtRest, h.length, h.maxAccel]

/-- The crest of a move between two squared speeds. -/
def Move.crestAt (m : Move α) (entrySq exitSq : α) : α × α × α :=
  crest m (entrySq / (2.0 * m.maxAccel)) (exitSq / (2.0 * m.maxAccel))

/-- A move with phases between the bounds of its crest. -/
def Move.withPhases (m : Move α) (entrySq exitSq peakSq accelStop decelStart : α) : Move α :=
  let phases := phasesBetween m peakSq accelStop decelStart (Scalar.least entrySq peakSq)
    (Scalar.least exitSq peakSq)
  { m with
    peakSq
    profile := ⟨phases.foldl (fun t p => t + p.duration) 0.0, entrySq / (2.0 * m.maxAccel),
      exitSq / (2.0 * m.maxAccel), phases⟩ }

theorem Move.withProfile_of_atRest {m : Move α} (h : m.AtRest) (entrySq exitSq : α) :
    m.withProfile entrySq exitSq = .ok { m with profile := .rest } := if_pos h

/-- A move that carries a profile has the bounds of its crest clamped, one after the other. -/
theorem Move.withProfile_eq_ok {m planned : Move α} (h : ¬ m.AtRest) {entrySq exitSq : α} :
    m.withProfile entrySq exitSq = .ok planned ↔
      ∃ accelStop decelStart,
        clampBetween (m.crestAt entrySq exitSq).2.1 0.0 m.length = .ok accelStop ∧
        clampBetween (m.crestAt entrySq exitSq).2.2 accelStop m.length = .ok decelStart ∧
        m.withPhases entrySq exitSq (m.crestAt entrySq exitSq).1 accelStop decelStart
          = planned := by
  have hmoving : ¬ (m.length ≤ minPlannedLength ∨ m.maxAccel ≤ 0.0) := h
  rw [Move.withProfile, if_neg hmoving, bind_eq_ok]
  constructor
  · rintro ⟨accelStop, haccel, hrest⟩
    obtain ⟨decelStart, hdecel, hplanned⟩ := bind_eq_ok.1 hrest
    exact ⟨accelStop, decelStart, haccel, hdecel, Except.ok.inj hplanned⟩
  · rintro ⟨accelStop, decelStart, haccel, hdecel, hplanned⟩
    exact ⟨accelStop, haccel, bind_eq_ok.2 ⟨decelStart, hdecel, congrArg Except.ok hplanned⟩⟩

/-- A move that carries a profile gets it exactly where its length is not below zero and the end
of its acceleration is a number. -/
theorem Move.exists_withProfile_iff [NumberOrder α] {m : Move α} (h : ¬ m.AtRest)
    (entrySq exitSq : α) :
    (∃ planned, m.withProfile entrySq exitSq = .ok planned) ↔
      0.0 ≤ m.length ∧ IsNumber (m.crestAt entrySq exitSq).2.1 := by
  simp only [Move.withProfile_eq_ok h, clampBetween_eq_ok]
  constructor
  · rintro ⟨_, accelStop, decelStart, ⟨hlength, rfl⟩, ⟨hle, -⟩, -⟩
    refine ⟨hlength, ?_⟩
    by_contra hnumber
    rw [clamp_of_not_number hnumber] at hle
    exact hnumber (number_left hle)
  · rintro ⟨hlength, hnumber⟩
    exact ⟨_, _, _, ⟨hlength, rfl⟩, ⟨clamp_le hnumber hlength, rfl⟩, rfl⟩

/-! ## The pass that gives profiles -/

theorem profileMoves_cons (before : Option α) (m : Move α) (rest : List (Move α)) :
    profileMoves before (m :: rest) = do
      let planned ← m.withProfile (boundarySq before m.peakSq)
        (boundarySq (peakAfter (m :: rest) 0) m.peakSq)
      let rest ← profileMoves (some m.peakSq) rest
      return planned :: rest := by
  cases before <;> cases rest <;> rfl

/-- Planned moves are those of the chain, each with the profile between its junctions. -/
theorem profileMoves_getElem {before : Option α} {moves planned : List (Move α)}
    (h : profileMoves before moves = .ok planned) :
    planned.length = moves.length ∧
      ∀ (i : ℕ) (hi : i < moves.length) (hi' : i < planned.length),
        moves[i].withProfile (boundarySq (peakBefore before moves i) moves[i].peakSq)
          (boundarySq (peakAfter moves i) moves[i].peakSq) = .ok planned[i] := by
  induction moves generalizing before planned with
  | nil =>
    cases h
    exact ⟨rfl, fun i hi => absurd hi (Nat.not_lt_zero i)⟩
  | cons m rest ih =>
    rw [profileMoves_cons, bind_eq_ok] at h
    obtain ⟨p, hp, h⟩ := h
    obtain ⟨ps, hps, h⟩ := bind_eq_ok.1 h
    cases h
    obtain ⟨hlen, hget⟩ := ih hps
    refine ⟨by simp [hlen], fun i hi hi' => ?_⟩
    cases i with
    | zero => exact hp
    | succ i =>
      rw [peakBefore_cons, peakAfter_cons]
      exact hget i (by simpa using hi) (by simpa using hi')

/-- The last pass goes through where every move has a profile between its junctions. -/
theorem exists_profileMoves {before : Option α} {moves : List (Move α)}
    (h : ∀ (i : ℕ) (hi : i < moves.length), ∃ p,
      moves[i].withProfile (boundarySq (peakBefore before moves i) moves[i].peakSq)
        (boundarySq (peakAfter moves i) moves[i].peakSq) = .ok p) :
    ∃ planned, profileMoves before moves = .ok planned := by
  induction moves generalizing before with
  | nil => exact ⟨[], rfl⟩
  | cons m rest ih =>
    obtain ⟨p, hp⟩ := h 0 (by simp)
    have hrest : ∀ (i : ℕ) (hi : i < rest.length), ∃ p,
        rest[i].withProfile (boundarySq (peakBefore (some m.peakSq) rest i) rest[i].peakSq)
          (boundarySq (peakAfter rest i) rest[i].peakSq) = .ok p := by
      intro i hi
      have hnext := h (i + 1) (Nat.succ_lt_succ hi)
      rw [peakBefore_cons, peakAfter_cons] at hnext
      exact hnext
    obtain ⟨ps, hps⟩ := ih hrest
    refine ⟨p :: ps, ?_⟩
    rw [profileMoves_cons, bind_eq_ok]
    exact ⟨p, hp, bind_eq_ok.2 ⟨ps, hps, rfl⟩⟩

/-! ## Planning a chain -/

/-- One move is another with a different peak and profile. -/
def Move.Replanned (m planned : Move α) : Prop :=
  planned = { m with peakSq := planned.peakSq, profile := planned.profile }

omit [Scalar α] in
theorem Move.Replanned.index {m planned : Move α} (h : m.Replanned planned) :
    planned.index = m.index := by
  rw [h]

omit [Scalar α] in
theorem Move.Replanned.line {m planned : Move α} (h : m.Replanned planned) :
    planned.line = m.line := by
  rw [h]

omit [Scalar α] in
theorem Move.Replanned.length {m planned : Move α} (h : m.Replanned planned) :
    planned.length = m.length := by
  rw [h]

omit [Scalar α] in
theorem Move.Replanned.maxAccel {m planned : Move α} (h : m.Replanned planned) :
    planned.maxAccel = m.maxAccel := by
  rw [h]

theorem Move.replanned_withProfile {m planned : Move α} {entrySq exitSq : α}
    (h : m.withProfile entrySq exitSq = .ok planned) : m.Replanned planned := by
  by_cases hrest : m.AtRest
  · rw [Move.withProfile_of_atRest hrest] at h
    cases h
    rfl
  · obtain ⟨accelStop, decelStart, -, -, rfl⟩ := (Move.withProfile_eq_ok hrest).1 h
    rfl

theorem Chain.plan_eq_ok {c planned : Chain α} :
    c.plan = .ok planned ↔ profileMoves none (feasiblePeaks c.moves) = .ok planned.moves := by
  rw [Chain.plan]
  rcases profileMoves none (feasiblePeaks c.moves) with fault | moves
  · exact ⟨nofun, nofun⟩
  · constructor
    · intro h
      cases h
      rfl
    · intro h
      cases h
      rfl

/-- Planning changes nothing but peaks and profiles. -/
theorem replanned_plan {c planned : Chain α} (h : c.plan = .ok planned) :
    planned.moves.length = c.moves.length ∧
      ∀ (i : ℕ) (hi : i < c.moves.length) (hi' : i < planned.moves.length),
        c.moves[i].Replanned planned.moves[i] := by
  obtain ⟨hlen, hget⟩ := profileMoves_getElem (Chain.plan_eq_ok.1 h)
  rw [length_feasiblePeaks] at hlen
  refine ⟨hlen, fun i hi hi' => ?_⟩
  have hback : i < (feasiblePeaks c.moves).length := by rwa [length_feasiblePeaks]
  have hlowered := lowered_getElem c.moves hi hback
  have hplanned := Move.replanned_withProfile (hget i hback hi')
  rw [Move.Lowered] at hlowered
  rw [Move.Replanned] at hplanned ⊢
  rw [hplanned, hlowered]

/-- Planning keeps the numbers of the moves. -/
theorem IsNumbered.plan {first : ℕ} {c planned : Chain α} (h : IsNumbered first c.moves)
    (hplan : c.plan = .ok planned) : IsNumbered first planned.moves := by
  obtain ⟨hlen, hkept⟩ := replanned_plan hplan
  intro k hk
  have hk' : k < c.moves.length := by omega
  rw [(hkept k hk' hk).index, h k hk']

/-- Over the reals every move gets a profile. -/
theorem Move.exists_withProfile (m : Move ℝ) (entrySq exitSq : ℝ) :
    ∃ planned, m.withProfile entrySq exitSq = .ok planned := by
  by_cases hrest : m.AtRest
  · exact ⟨_, Move.withProfile_of_atRest hrest entrySq exitSq⟩
  · have hlength : (0.0 : ℝ) ≤ m.length := by
      by_contra hneg
      have hshort : (0.0 : ℝ) ≤ minPlannedLength := by norm_num [minPlannedLength]
      exact hrest (.inl ((not_le.1 hneg).le.trans hshort))
    exact (Move.exists_withProfile_iff hrest entrySq exitSq).2 ⟨hlength, le_refl _⟩

/-- Over the reals every chain is planned. -/
theorem exists_plan (c : Chain ℝ) : ∃ planned, c.plan = .ok planned := by
  obtain ⟨moves, hmoves⟩ : ∃ moves, profileMoves none (feasiblePeaks c.moves) = .ok moves :=
    exists_profileMoves fun _ _ => Move.exists_withProfile _ _ _
  exact ⟨⟨moves⟩, Chain.plan_eq_ok.2 hmoves⟩

end Toolpath
