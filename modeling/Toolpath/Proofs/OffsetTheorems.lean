import Toolpath.Proofs.ModeTheorems

/-!
# Offsets of the coordinate origins

The offset of the origin in force is added to every axis word before the distance mode counts. So
it shifts places, and it is added to displacements as well, on every line anew.

* A program of displacements (`IsIncremental`) displaces the machine, on each axis that a line
  names, by the programmed value and the offset there (`Move.IsDisplaced`).
* Of the offsets only those count that belong to the origin in force on a line and to an axis that
  the line names: whatever the others are, the program comes to the same (`run_withOffsets`).
-/

namespace Toolpath

variable {α σ : Type}

/-! ## Programs of displacements -/

/-- Whether a block has an axis word. -/
def Block.NamesAxis (b : Block) : Prop := ∃ axis : Axis, (b.word? axis.letter).isSome

/-- A program of displacements: displacements are selected before the motion of the first block that
names an axis, and places never are. -/
structure IsIncremental (p : Program) : Prop where
  selects : ∀ front b back, p = front ++ b :: back → b.NamesAxis →
    ∃ c ∈ front ++ [b], Effect.distance .incremental ∈ c.effects
  keeps : ∀ b ∈ p, Effect.distance .absolute ∉ b.effects

/-- It is enough that the first block selects displacements. -/
theorem IsIncremental.of_head {b : Block} {rest : Program}
    (hselects : Effect.distance .incremental ∈ b.effects)
    (hkeeps : ∀ c ∈ b :: rest, Effect.distance .absolute ∉ c.effects) :
    IsIncremental (b :: rest) := by
  refine ⟨?_, hkeeps⟩
  intro front c back hp _
  refine ⟨b, ?_, hselects⟩
  cases front with
  | nil =>
    cases hp
    exact List.mem_singleton_self b
  | cons d front =>
    cases hp
    exact List.mem_cons_self

/-- On the lines that name an axis, displacements are in force. -/
theorem IsIncremental.inForce {p front back : Program} {b : Block} (h : IsIncremental p)
    (hp : p = front ++ b :: back) (hb : b.NamesAxis) :
    inForce Effect.distance? .absolute (front ++ [b]) = .incremental := by
  obtain ⟨c, hc, hselects⟩ := h.selects front b back hp hb
  have hselected : ∃ c ∈ front ++ [b], ∃ effect ∈ c.effects,
      effect.distance? = some .incremental := ⟨c, hc, _, hselects, rfl⟩
  apply inForce_of_forall hselected
  intro own hown effect heffect mode hmode
  have hmem : own ∈ p := by
    rw [hp, List.append_cons]
    exact List.mem_append_left back hown
  rw [Effect.eq_of_distance? hmode] at heffect
  cases mode with
  | incremental => rfl
  | absolute => exact absurd heffect (h.keeps own hmem)

/-! ## Targets -/

variable [Scalar α]

theorem Block.get_axisWords (b : Block) (axis : Axis) :
    (b.axisWords : AxisWords α).get axis = b.value? axis.letter := by
  cases axis <;> rfl

namespace Machine

variable {m : Machine α} {s : Settings α} {b : Block} {move : Move α}

/-- Only a block that names an axis makes a move, and the move ends at the target of the block. -/
theorem target_motionOf {s : MachineSettings α} (h : m.motionOf s b = .ok (some move)) :
    b.NamesAxis ∧ move.target = m.targetOf s b.axisWords := by
  constructor
  · by_contra hnone
    have hword : ∀ axis : Axis, (b.value? axis.letter : Option α) = none := by
      intro axis
      have hmissing : ¬ (b.word? axis.letter).isSome := fun hsome => hnone ⟨axis, hsome⟩
      rw [Option.not_isSome_iff_eq_none] at hmissing
      unfold Block.value?
      rw [hmissing]
      rfl
    have hempty : (b.axisWords : AxisWords α) = ⟨none, none, none⟩ := by
      show Vec3.mk (b.value? Axis.x.letter) (b.value? Axis.y.letter) (b.value? Axis.z.letter) = _
      rw [hword, hword, hword]
    unfold motionOf at h
    rw [hempty] at h
    cases h
  · rcases straight_or_arc h with ⟨pace, hline⟩ | ⟨clockwise, circle, -, rfl⟩
    · unfold straightMove at hline
      split_ifs at hline
      cases hline
      rfl
    · rfl

end Machine

/-! ## Offsets that count -/

/-- The same settings with other offsets. -/
def MachineSettings.withOffsets (s : MachineSettings α) (offsets : List (Vec3 α)) :
    MachineSettings α :=
  { s with workOffsets := offsets }

/-- The same settings with other offsets. -/
def Settings.withOffsets (s : Settings α) (offsets : List (Vec3 α)) : Settings α :=
  { s with machine := s.machine.withOffsets offsets }

/-- Two machines give the origin in force on every line the same offset on the axes that the line
names. -/
def SharesOffsets (s s' : MachineSettings α) (p : Program) : Prop :=
  ∀ front b back, p = front ++ b :: back → ∀ axis : Axis, (b.word? axis.letter).isSome →
    (s.originOffset (inForce Effect.origin? .first (front ++ [b]))).get axis =
      (s'.originOffset (inForce Effect.origin? .first (front ++ [b]))).get axis

namespace Machine

/-- The target of a block depends on the offset on the axes that it names. -/
theorem targetOf_congr {m : Machine α} {s s' : MachineSettings α} {b : Block}
    (h : ∀ axis : Axis, (b.word? axis.letter).isSome →
      (s.originOffset m.origin).get axis = (s'.originOffset m.origin).get axis) :
    m.targetOf s b.axisWords = m.targetOf s' b.axisWords := by
  unfold targetOf
  dsimp only
  congr 1
  funext axis
  rw [b.get_axisWords]
  unfold Block.value?
  cases hword : b.word? axis.letter with
  | none => rfl
  | some w => rw [h axis (by rw [hword]; rfl)]

theorem execute_withOffsets {m : Machine α} {s : Settings α} {offsets : List (Vec3 α)} {b : Block}
    (h : ∀ axis : Axis, (b.word? axis.letter).isSome →
      (s.machine.originOffset (m.prepared s b).origin).get axis =
        ((s.machine.withOffsets offsets).originOffset (m.prepared s b).origin).get axis) :
    m.execute (s.withOffsets offsets) b = m.execute s b := by
  have hmotion : (m.prepared s b).motionOf (s.machine.withOffsets offsets) b =
      (m.prepared s b).motionOf s.machine b := by
    unfold motionOf
    dsimp only
    rw [← targetOf_congr h]
    rfl
  unfold prepared at hmotion
  unfold execute
  dsimp only
  rw [show (s.withOffsets offsets).machine = s.machine.withOffsets offsets from rfl,
    show (s.withOffsets offsets).strictness = s.strictness from rfl, hmotion]

end Machine

/-! ## Programs -/

/-- A move by displacements: on the axes that its block names, the machine is displaced by the
programmed values and by the offset of the origin in force; on the others it stays. -/
def Move.IsDisplaced (s : MachineSettings α) (p : Program) (move : Move α) : Prop :=
  ∃ front b back, p = front ++ b :: back ∧ move.line = b.line ∧ b.NamesAxis ∧ ∀ axis : Axis,
    move.target.get axis =
      match (b.value? axis.letter : Option α) with
      | none => move.source.get axis
      | some x => move.source.get axis +
          (x + (s.originOffset (inForce Effect.origin? .first (front ++ [b]))).get axis)

section Runs

variable (s : Settings α) (listen : σ → Move α → σ) (before : σ) {p : Program}

/-- Offsets that do not count make no difference to what a program comes to. -/
theorem run_withOffsets {offsets : List (Vec3 α)}
    (h : SharesOffsets s.machine (s.machine.withOffsets offsets) p) :
    Interpretation.run (s.withOffsets offsets) listen (.start (s.withOffsets offsets) before) p =
      Interpretation.run s listen (.start s before) p := by
  -- from the end of the program, because the origin in force is that of all blocks so far
  induction p using List.reverseRecOn with
  | nil => rfl
  | append_singleton p b ih =>
    have hfront : SharesOffsets s.machine (s.machine.withOffsets offsets) p := by
      intro front own back hp
      exact h front own (back ++ [b]) (by rw [hp]; simp)
    have horigin : ((Interpretation.run s listen (.start s before) p).machine.prepared s b).origin =
        inForce Effect.origin? .first (p ++ [b]) :=
      Machine.isMode_origin.prepared_run s listen before p b
    have hlast := h p b [] rfl
    rw [← horigin] at hlast
    rw [Interpretation.run_concat, Interpretation.run_concat, ih hfront]
    unfold Interpretation.step
    rw [Machine.execute_withOffsets hlast]

/-- All moves of a program of displacements are by displacements. -/
theorem isDisplaced_run (h : IsIncremental p) :
    ∀ move ∈ (Interpretation.run s listen (.start s before) p).path,
      move.IsDisplaced s.machine p := by
  intro move hmove
  obtain ⟨front, b, back, drawn, hp, hdrawn, hsame⟩ :=
    Interpretation.exists_issue s listen before p move hmove
  have hmotion := Machine.move_execute.1 hdrawn
  obtain ⟨hnames, htarget⟩ := Machine.target_motionOf hmotion
  have hissued := Machine.issues_motionOf hmotion
  rw [← Machine.prepared] at htarget hissued
  have hdistance := (Machine.isMode_distance.prepared_run s listen before front b).trans
    (h.inForce hp hnames)
  have horigin := Machine.isMode_origin.prepared_run s listen before front b
  refine ⟨front, b, back, hp, ?_, hnames, fun axis => ?_⟩
  · rw [hsame]
    exact hissued.line_eq
  · rw [hsame]
    show drawn.target.get axis = match (b.value? axis.letter : Option α) with
      | none => drawn.source.get axis
      | some x => drawn.source.get axis + _
    rw [htarget, hissued.source_eq, Machine.targetOf, Vec3.get_ofAxes, b.get_axisWords, hdistance,
      horigin]
    rfl

/-- What a program of displacements makes of the offsets: they displace the machine on every line
once more, and only those count that belong to the origin in force and to a named axis. -/
theorem path_incremental (h : IsIncremental p) :
    (∀ move ∈ (Interpretation.run s listen (.start s before) p).path,
      move.IsDisplaced s.machine p) ∧
    ∀ offsets, SharesOffsets s.machine (s.machine.withOffsets offsets) p →
      Interpretation.run (s.withOffsets offsets) listen (.start (s.withOffsets offsets) before) p =
        Interpretation.run s listen (.start s before) p :=
  ⟨isDisplaced_run s listen before h, fun _ => run_withOffsets s listen before⟩

end Runs

/-! ## A displacement with an offset -/

/-- One displacement. -/
def stepBlock : Block := .ofPairs 1 [('G', 91.0), ('G', 1.0), ('X', 10.0)]

theorem effects_stepBlock : stepBlock.effects = [.distance .incremental, .motion .linear] := by
  decide +kernel

theorem isIncremental_stepBlock : IsIncremental [stepBlock] := by
  apply IsIncremental.of_head
  · rw [effects_stepBlock]
    exact List.mem_cons_self
  · intro c hc
    rw [List.mem_singleton.1 hc, effects_stepBlock]
    decide

/-- The default settings with an offset of the first work origin. -/
noncomputable def firstOffset (offset : Vec3 ℝ) : Settings ℝ :=
  (Settings.default : Settings ℝ).withOffsets (.zero :: offset :: List.replicate 8 .zero)

theorem validate_firstOffset (offset : Vec3 ℝ) : (firstOffset offset).validate = .ok () := by
  have hvalid := Settings.isValid_default
  exact Settings.validate_eq_ok.2 { hvalid with workOffsets := rfl }

theorem axisWords_stepBlock : stepBlock.axisWords = (⟨some 10, none, none⟩ : AxisWords ℝ) := by
  have hdatum : Number.doubleDatum 10.0 = .finite false (5 * 2 ^ 50) (-49) := by decide +kernel
  have hten : (Number.doubleDatum 10.0).toReal = 10 := by
    rw [hdatum]
    norm_num [Number.Datum.toReal]
  have hvalue : stepBlock.value? 'X' = some (10 : ℝ) := congrArg some hten
  rw [← hvalue]
  rfl

/-- The machine that the step moves. -/
noncomputable def steppingMachine (s : Settings ℝ) : Machine ℝ :=
  { Machine.initial s with distance := .incremental, motion := .linear }

theorem prepared_stepBlock (s : Settings ℝ) :
    (Machine.initial s).prepared s stepBlock = steppingMachine s := by
  unfold Machine.prepared
  rw [Machine.applyCodes_fst, effects_stepBlock]
  rfl

/-- The step leads from the zero point to the sum of the displacement and the offset. -/
theorem motionOf_stepBlock {offset : Vec3 ℝ} (h : 0 ≤ offset.x) :
    (steppingMachine (firstOffset offset)).motionOf (firstOffset offset).machine stepBlock =
      .ok (some (.make .line .zero ⟨10 + offset.x, 0, 0⟩ MachineSettings.default.defaultFeedRate 1
        .normal)) := by
  have hzero : (0.0 : ℝ) = 0 := by norm_num
  have htarget : (steppingMachine (firstOffset offset)).targetOf (firstOffset offset).machine
      ⟨some 10, none, none⟩ = ⟨10 + offset.x, 0, 0⟩ := by
    show (⟨0.0 + (10 + offset.x), 0.0, 0.0⟩ : Vec3 ℝ) = _
    rw [hzero, zero_add]
  have hfar : (Machine.minDisplacement : ℝ) <
      ((⟨10 + offset.x, 0, 0⟩ : Vec3 ℝ) - .zero).maxAbs := by
    show (0.00001 : ℝ) < Scalar.larger |10 + offset.x - 0.0| _
    rw [Scalar.larger_eq_max, hzero, sub_zero, abs_of_nonneg (by linarith)]
    exact lt_max_of_lt_left (by norm_num; linarith)
  unfold Machine.motionOf
  rw [axisWords_stepBlock]
  dsimp only
  rw [htarget]
  exact congrArg Except.ok (if_pos hfar)

theorem path_stepBlock (offset : Vec3 ℝ) (h : 0 ≤ offset.x) :
    ((Interpretation.run (firstOffset offset) Array.push (.start (firstOffset offset) #[])
      [stepBlock]).path.map (·.target)) = #[⟨10 + offset.x, 0, 0⟩] := by
  have hmove : ((Machine.initial (firstOffset offset)).execute (firstOffset offset)
      stepBlock).move? = some (.make .line .zero ⟨10 + offset.x, 0, 0⟩
        MachineSettings.default.defaultFeedRate 1 .normal) := by
    rw [Machine.move_execute, ← Machine.prepared, prepared_stepBlock, motionOf_stepBlock h]
  rw [Interpretation.path_singleton hmove, List.map_toArray, List.map_singleton]
  rfl

/-- The offset of the origin in force is added to a displacement: with it the same program makes
another path. -/
theorem path_incremental_shifted : IsIncremental [stepBlock] ∧
    (firstOffset ⟨0, 0, 0⟩).validate = .ok () ∧ (firstOffset ⟨1, 0, 0⟩).validate = .ok () ∧
    firstOffset ⟨1, 0, 0⟩ =
      (firstOffset ⟨0, 0, 0⟩).withOffsets (firstOffset ⟨1, 0, 0⟩).machine.workOffsets ∧
    (Interpretation.run (firstOffset ⟨0, 0, 0⟩) Array.push (.start (firstOffset ⟨0, 0, 0⟩) #[])
      [stepBlock]).path.map (·.target) = #[⟨10, 0, 0⟩] ∧
    (Interpretation.run (firstOffset ⟨1, 0, 0⟩) Array.push (.start (firstOffset ⟨1, 0, 0⟩) #[])
      [stepBlock]).path.map (·.target) = #[⟨11, 0, 0⟩] := by
  have hplain := path_stepBlock ⟨0, 0, 0⟩ le_rfl
  have hshifted := path_stepBlock ⟨1, 0, 0⟩ zero_le_one
  rw [add_zero] at hplain
  rw [show (10 : ℝ) + 1 = 11 by norm_num] at hshifted
  exact ⟨isIncremental_stepBlock, validate_firstOffset _, validate_firstOffset _, rfl, hplain,
    hshifted⟩

/-- Offsets on axes that the step does not name do not count. -/
theorem path_incremental_stepBlock : IsIncremental [stepBlock] ∧
    SharesOffsets (firstOffset ⟨1, 0, 0⟩).machine (firstOffset ⟨1, 2, 3⟩).machine [stepBlock] ∧
    (∃ move, move ∈ (Interpretation.run (firstOffset ⟨1, 0, 0⟩) Array.push
        (.start (firstOffset ⟨1, 0, 0⟩) #[]) [stepBlock]).path ∧
      move.IsDisplaced (firstOffset ⟨1, 0, 0⟩).machine [stepBlock]) ∧
    Interpretation.run (firstOffset ⟨1, 2, 3⟩) Array.push (.start (firstOffset ⟨1, 2, 3⟩) #[])
        [stepBlock] =
      Interpretation.run (firstOffset ⟨1, 0, 0⟩) Array.push (.start (firstOffset ⟨1, 0, 0⟩) #[])
        [stepBlock] := by
  have hshares : SharesOffsets (firstOffset ⟨1, 0, 0⟩).machine (firstOffset ⟨1, 2, 3⟩).machine
      [stepBlock] := by
    intro front b back hp axis hnamed
    cases front with
    | nil =>
      cases hp
      cases axis with
      | x =>
        rw [List.nil_append, inForce, List.flatMap_singleton, effects_stepBlock]
        rfl
      | y => exact absurd hnamed (by decide +kernel)
      | z => exact absurd hnamed (by decide +kernel)
    | cons own front => cases front <;> cases hp
  obtain ⟨hdisplaced, hsame⟩ := path_incremental (firstOffset ⟨1, 0, 0⟩) Array.push #[]
    isIncremental_stepBlock
  have hone := congrArg Array.size (path_stepBlock ⟨1, 0, 0⟩ zero_le_one)
  rw [Array.size_map] at hone
  have hmem := Array.getElem_mem (hone.trans_gt Nat.zero_lt_one)
  exact ⟨isIncremental_stepBlock, hshares, ⟨_, hmem, hdisplaced _ hmem⟩, hsame _ hshares⟩

end Toolpath
