import Toolpath.Proofs.DropTheorems
import Toolpath.Proofs.RotationTheorems
import Toolpath.Proofs.StrictnessTheorems

/-!
# Accounts of motions

Every motion that a program asks for is either made or reported as dropped, and everything else that
is reported is a feed rate that is not above zero or, in a strict reading, a code without effect.

* The feed rate and the codes of a block report what the block says, whatever the machine is
  (`Machine.reports_eq`), and drop no motion (`Block.dropsMotion_reports`).
* A block asks for an arc, for a straight move to another place, or for nothing
  (`Machine.motionOf_ne_none_iff`); it makes one move, or drops one, exactly if it asks for one
  (`Machine.tally_execute`).
* So the motions of a program are counted by the blocks that ask for one
  (`Interpretation.isAccounted_run`).
-/

namespace Toolpath

open Scalar

variable {α σ : Type}

/-! ## Reports -/

/-- The problem of a code that is unknown or not supported. -/
def Word.report? (line : ℕ) (w : Word) : Option (Problem α) :=
  match Effect.ofCode? w.code with
  | none => some (.unknownCode line w.code)
  | some .unsupported => some (.unsupportedCode line w.code)
  | some _ => none

/-- What a block reports of its feed rate and its codes: the last feed rate if it is not above zero,
and in a strict reading every code that is unknown or not supported. -/
def Block.reports [Scalar α] (strictness : Strictness) (b : Block) : List (Problem α) :=
  let badFeed? : Option α := (b.value? 'F').filter fun x => ¬ 0.0 < x
  let codes : List (Problem α) :=
    match strictness with
    | .lenient => []
    | .strict => b.codeWords.filterMap (Word.report? b.line)
  badFeed?.toList.map (.badFeedRate b.line) ++ codes

theorem Word.report?_eq (line : ℕ) (w : Word) :
    (w.report? line : Option (Problem α)) = Machine.codeProblem? .strict line w.code := by
  unfold Word.report? Machine.codeProblem?
  rcases Effect.ofCode? w.code with _ | effect
  · rfl
  · cases effect <;> rfl

variable [Scalar α]

/-- The feed rate and the codes of a block report what the block says. -/
theorem Machine.reports_eq (m : Machine α) (s : Settings α) (b : Block) :
    m.reports s b = b.reports s.strictness := by
  have hfeed : (m.applyFeed b).2 =
      ((b.value? 'F').filter fun x : α => decide (¬ 0.0 < x)).toList.map (.badFeedRate b.line) := by
    unfold applyFeed
    rcases (b.value? 'F' : Option α) with _ | x
    · rfl
    · dsimp only
      split_ifs with hpos <;> simp [Option.filter, hpos]
  have hcodes : ∀ strictness, ((m.applyFeed b).1.applyCodes strictness b).2 =
      match strictness with
      | .lenient => []
      | .strict => b.codeWords.filterMap (Word.report? b.line) := by
    intro strictness
    cases strictness with
    | lenient => exact List.filterMap_eq_nil_iff.2 fun w _ => rfl
    | strict =>
      apply List.filterMap_congr
      intro w _
      exact (w.report?_eq b.line).symm
  unfold reports Block.reports
  rw [hfeed, hcodes]

/-- Neither a feed rate nor a code drops a motion. -/
theorem Block.dropsMotion_reports (strictness : Strictness) (b : Block) :
    ∀ problem ∈ (b.reports strictness : List (Problem α)), problem.dropsMotion = false := by
  intro problem hproblem
  unfold reports at hproblem
  rcases List.mem_append.1 hproblem with hfeed | hcode
  · obtain ⟨x, -, rfl⟩ := List.mem_map.1 hfeed
    rfl
  · cases strictness with
    | lenient => cases hcode
    | strict =>
      obtain ⟨w, -, hw⟩ := List.mem_filterMap.1 hcode
      unfold Word.report? at hw
      split at hw
      · cases hw
        rfl
      · cases hw
        rfl
      · cases hw

/-! ## Motions that are asked for -/

theorem Axis.exists_iff {p : Axis → Prop} : (∃ axis, p axis) ↔ p .x ∨ p .y ∨ p .z := by
  constructor
  · rintro ⟨axis, haxis⟩
    cases axis with
    | x => exact .inl haxis
    | y => exact .inr (.inl haxis)
    | z => exact .inr (.inr haxis)
  · rintro (h | h | h)
    · exact ⟨.x, h⟩
    · exact ⟨.y, h⟩
    · exact ⟨.z, h⟩

instance (b : Block) : Decidable b.NamesAxis := decidable_of_iff' _ Axis.exists_iff

/-- Between finite points a magnitude is exceeded by the greatest displacement exactly if it is
exceeded on some axis. -/
theorem Vec3.lt_maxAbs_sub_iff [Rounding α] {c : α} {u v : Vec3 α} (hu : u.IsFinite)
    (hv : v.IsFinite) :
    c < (u - v).maxAbs ↔ ∃ axis : Axis, c < Arithmetic.abs (u.get axis - v.get axis) := by
  have hnumber : ∀ a b : α, Scalar.isFinite a = true → Scalar.isFinite b = true →
      IsNumber (Arithmetic.abs (a - b)) := by
    intro a b ha hb
    have hb := Rounding.isNumber_of_isFinite b hb
    exact Rounding.isNumber_abs _ (Rounding.isNumber_sub a b ha hb)
  rw [Axis.exists_iff]
  exact lt_maxAbs_iff (hnumber _ _ hu.x hv.x) (hnumber _ _ hu.y hv.y) (hnumber _ _ hu.z hv.z)

namespace Machine

/-- A block asks for an arc. -/
def AsksArc (m : Machine α) (b : Block) : Prop :=
  b.NamesAxis ∧ (m.motion = .clockwise ∨ m.motion = .counterClockwise)

/-- A block asks for a straight motion to another place: one that is too far on some axis to be no
motion. -/
def AsksLine (m : Machine α) (s : MachineSettings α) (b : Block) : Prop :=
  b.NamesAxis ∧ (m.motion = .rapid ∨ m.motion = .linear) ∧ ∃ axis : Axis,
    minDisplacement < Arithmetic.abs ((m.targetOf s b.axisWords).get axis - m.position.get axis)

instance (m : Machine α) (b : Block) : Decidable (m.AsksArc b) :=
  inferInstanceAs (Decidable (_ ∧ _))

instance (m : Machine α) (s : MachineSettings α) (b : Block) : Decidable (m.AsksLine s b) :=
  have : Decidable (∃ axis : Axis, minDisplacement <
      Arithmetic.abs ((m.targetOf s b.axisWords).get axis - m.position.get axis)) :=
    decidable_of_iff' _ Axis.exists_iff
  inferInstanceAs (Decidable (_ ∧ _ ∧ _))

theorem AsksArc.not_asksLine {m : Machine α} {s : MachineSettings α} {b : Block}
    (h : m.AsksArc b) : ¬ m.AsksLine s b := by
  rintro ⟨-, hmotion, -⟩
  rcases h.2 with harc | harc <;> rw [harc] at hmotion <;> rcases hmotion with hline | hline <;>
    cases hline

variable [Rounding α] {m : Machine α} {b : Block}

/-- A block asks for a motion exactly if it names an axis in a mode of arcs, or in a mode of
straight moves and away from the position. -/
theorem motionOf_ne_none_iff {s : MachineSettings α} (hfinite : m.MovesFinitely s b) :
    m.motionOf s b ≠ .ok none ↔ m.AsksArc b ∨ m.AsksLine s b := by
  have harc : ∀ clockwise,
      (m.arcMove b (m.targetOf s b.axisWords) clockwise).map some ≠ .ok none := by
    intro clockwise
    rcases m.arcMove b (m.targetOf s b.axisWords) clockwise with problem | move <;> rintro ⟨⟩
  have hline : m.motion = .rapid ∨ m.motion = .linear → ∀ pace,
      Except.ok (m.straightMove s b.line pace (m.targetOf s b.axisWords)) ≠
          (.ok none : Except (Problem α) _) ↔
        ∃ axis : Axis, minDisplacement <
          Arithmetic.abs ((m.targetOf s b.axisWords).get axis - m.position.get axis) := by
    intro hmotion pace
    obtain ⟨hposition, htarget⟩ := hfinite hmotion
    rw [← Vec3.lt_maxAbs_sub_iff htarget hposition]
    unfold straightMove
    split_ifs with hfar <;> simp [hfar]
  -- a block that names no axis moves nothing in any mode
  by_cases hnames : b.NamesAxis
  · unfold motionOf AsksArc AsksLine
    dsimp only
    rw [if_neg (Bool.eq_false_iff.1 (b.isEmpty_axisWords.2 hnames))]
    cases hmotion : m.motion with
    | rapid => simp [hline (.inl hmotion), hnames]
    | linear => simp [hline (.inr hmotion), hnames]
    | clockwise => simp [harc, hnames]
    | counterClockwise => simp [harc, hnames]
    | cancel => simp
  · unfold motionOf AsksArc AsksLine
    dsimp only
    rw [if_pos (Bool.of_not_eq_false (mt b.isEmpty_axisWords.1 hnames))]
    simp [hnames]

/-- A block makes one move or drops one, exactly if it asks for one. -/
theorem tally_execute {s : Settings α} (hfinite : (m.prepared s b).MovesFinitely s.machine b) :
    (m.execute s b).move?.toList.length + droppedMotions (m.execute s b).problems =
      (if (m.prepared s b).AsksArc b then 1 else 0) +
        (if (m.prepared s b).AsksLine s.machine b then 1 else 0) := by
  have hreports : droppedMotions (m.reports s b) = 0 := by
    rw [reports_eq]
    apply List.countP_eq_zero.2
    intro problem hproblem
    rw [b.dropsMotion_reports s.strictness problem hproblem]
    exact Bool.false_ne_true
  have hcount : (if (m.prepared s b).AsksArc b then 1 else 0) +
      (if (m.prepared s b).AsksLine s.machine b then 1 else 0) =
        if (m.prepared s b).AsksArc b ∨ (m.prepared s b).AsksLine s.machine b then 1 else 0 := by
    by_cases harc : (m.prepared s b).AsksArc b
    · simp [harc, harc.not_asksLine]
    · simp [harc]
  -- the three outcomes of a block: it drops its motion, has none, or draws it
  have hasks := motionOf_ne_none_iff hfinite
  rw [hcount]
  rcases hmotion : (m.prepared s b).motionOf s.machine b with problem | _ | move
  · have hdrops := (losesArc_iff.2 hmotion).dropsMotion.2
    rw [if_pos (hasks.1 (by rw [hmotion]; rintro ⟨⟩)), execute_of_error hmotion, droppedMotions,
      List.countP_append, ← droppedMotions, hreports]
    simp [hdrops]
  · rw [if_neg (fun h => hasks.2 h hmotion), execute_of_none hmotion, hreports]
    rfl
  · rw [if_pos (hasks.1 (by rw [hmotion]; rintro ⟨⟩)), execute_of_some hmotion, hreports]
    rfl

omit [Rounding α] in
/-- Apart from a dropped motion a block reports its feed rate and its codes. -/
theorem filter_problems_execute (m : Machine α) (s : Settings α) (b : Block) :
    ((m.execute s b).problems.filter fun problem => !problem.dropsMotion) =
      b.reports s.strictness := by
  have hkept : (b.reports s.strictness).filter (fun problem : Problem α => !problem.dropsMotion) =
      b.reports s.strictness := by
    apply List.filter_eq_self.2
    intro problem hproblem
    rw [b.dropsMotion_reports s.strictness problem hproblem]
    rfl
  rcases hmotion : (m.prepared s b).motionOf s.machine b with problem | _ | move
  · have hdrops := (losesArc_iff.2 hmotion).dropsMotion.2
    rw [execute_of_error hmotion, List.filter_append, reports_eq, hkept]
    simp [hdrops]
  · rw [execute_of_none hmotion, reports_eq, hkept]
  · rw [execute_of_some hmotion, reports_eq, hkept]

end Machine

/-! ## Programs -/

/-- The machines in which the blocks of a program move, behind their feed rates and codes. -/
def Machine.prepareds (s : Settings α) : Machine α → Program → List (Machine α × Block)
  | _, [] => []
  | m, b :: rest => (m.prepared s b, b) :: prepareds s (m.execute s b).machine rest

namespace Interpretation

/-- The motions of an interpretation that are accounted for: moves of the path and problems that
drop a motion. -/
def tally (i : Interpretation α σ) : ℕ := i.path.size + droppedMotions i.problems.toList

/-- Every motion that a program asks for is accounted for once, as a move of the path or as a
problem that drops a motion. The other problems are those of the feed rates and the codes, in
order. -/
structure IsAccounted (s : Settings α) (listen : σ → Move α → σ) (before : σ) (p : Program) :
    Prop where
  /-- A line adds at most one move. -/
  path_line : ∀ front b back, p = front ++ b :: back → ∃ made : List (Move α), made.length ≤ 1 ∧
    (run s listen (.start s before) (front ++ [b])).path.toList =
      (run s listen (.start s before) front).path.toList ++ made
  motions_eq : (run s listen (.start s before) p).path.size +
      droppedMotions (run s listen (.start s before) p).problems.toList =
    ((Machine.initial s).prepareds s p).countP (fun (m, b) => m.AsksArc b) +
      ((Machine.initial s).prepareds s p).countP (fun (m, b) => m.AsksLine s.machine b)
  others_eq : ((run s listen (.start s before) p).problems.toList.filter fun problem =>
      !problem.dropsMotion) = p.flatMap (Block.reports s.strictness)

variable (s : Settings α) (listen : σ → Move α → σ)

theorem problems_step (i : Interpretation α σ) (b : Block) :
    (step s listen i b).problems.toList =
      i.problems.toList ++ (i.machine.execute s b).problems := by
  cases hmove : (i.machine.execute s b).move? with
  | none => simp [step_of_none hmove]
  | some move => simp [step_of_some hmove]

/-- A line adds the move that it makes, numbered, and no other. -/
theorem path_step (i : Interpretation α σ) (b : Block) :
    (step s listen i b).path.toList = i.path.toList ++
      (i.machine.execute s b).move?.toList.map fun move =>
        { move with index := i.path.size } := by
  cases hmove : (i.machine.execute s b).move? with
  | none => simp [step_of_none hmove]
  | some move => simp [step_of_some hmove]

theorem filter_problems_run (i : Interpretation α σ) (p : Program) :
    ((run s listen i p).problems.toList.filter fun problem => !problem.dropsMotion) =
      (i.problems.toList.filter fun problem => !problem.dropsMotion) ++
        p.flatMap (Block.reports s.strictness) := by
  unfold run
  induction p generalizing i with
  | nil => simp
  | cons b rest ih =>
    rw [List.foldl_cons, ih, problems_step, List.filter_append, Machine.filter_problems_execute,
      List.flatMap_cons, List.append_assoc]

variable [Rounding α]

/-- Line by line the motions that are asked for are counted. -/
theorem tally_run {i : Interpretation α σ} {p : Program}
    (hfinite : i.machine.KeepsFinite s p) :
    (run s listen i p).tally = i.tally +
      ((i.machine.prepareds s p).countP (fun (m, b) => m.AsksArc b) +
        (i.machine.prepareds s p).countP (fun (m, b) => m.AsksLine s.machine b)) := by
  induction p generalizing i with
  | nil => rfl
  | cons b rest ih =>
    obtain ⟨hblock, hrest⟩ := hfinite
    have hmachine : (step s listen i b).machine = (i.machine.execute s b).machine := machine_step
    have hlength : (step s listen i b).path.size =
        i.path.size + (i.machine.execute s b).move?.toList.length := by
      rw [← Array.length_toList, path_step, List.length_append, List.length_map,
        Array.length_toList]
    -- what one block adds, from the state before it; the rest goes on from the state behind it
    have hstep : (step s listen i b).tally = i.tally +
        ((i.machine.execute s b).move?.toList.length +
          droppedMotions (i.machine.execute s b).problems) := by
      unfold tally droppedMotions
      rw [hlength, problems_step, List.countP_append]
      omega
    have hrun : (run s listen i (b :: rest)).tally =
        (step s listen i b).tally +
          (((step s listen i b).machine.prepareds s rest).countP (fun (m, b) => m.AsksArc b) +
            ((step s listen i b).machine.prepareds s rest).countP
              (fun (m, b) => m.AsksLine s.machine b)) :=
      ih (by rw [hmachine]; exact hrest)
    rw [hrun, hstep, Machine.tally_execute hblock, hmachine, Machine.prepareds, List.countP_cons,
      List.countP_cons]
    simp only [decide_eq_true_eq]
    omega

/-- Every motion is accounted for exactly once. -/
theorem isAccounted_run (before : σ) (p : Program)
    (hfinite : (Machine.initial s).KeepsFinite s p) : IsAccounted s listen before p where
  path_line := by
    intro front b back _
    rw [run_concat, path_step]
    refine ⟨_, ?_, rfl⟩
    rw [List.length_map]
    cases (((run s listen (.start s before) front).machine.execute s b).move?) with
    | none => exact Nat.zero_le 1
    | some move => exact le_rfl
  motions_eq := by
    have hrun := tally_run s listen (i := .start s before) hfinite
    have hstart : (Interpretation.start s before).tally = 0 := rfl
    rw [hstart, Nat.zero_add] at hrun
    exact hrun
  others_eq := by
    rw [filter_problems_run]
    rfl

/-- A line with a feed rate that is not above zero, a place that has been reached already, an arc
without centre, and an arc behind a code that is unknown. -/
def accountedBlocks : Program :=
  [.ofPairs 1 [('G', 1.0), ('X', 1.0), ('F', -1.0)], .ofPairs 2 [('X', 1.0)],
    .ofPairs 3 [('G', 2.0), ('Y', 1.0)], .ofPairs 4 [('G', 33.0), ('X', 2.0), ('I', 0.5)]]

/-- The default settings for a strict reading. -/
def strictSettings : Settings Float32 := Settings.default.reading .strict

/-- Two moves and one dropped motion on four lines. -/
theorem isAccounted_accountedBlocks :
    (Machine.initial strictSettings).KeepsFinite strictSettings accountedBlocks ∧
      (run strictSettings Array.push (.start strictSettings #[]) accountedBlocks).path.size = 2 ∧
      (run strictSettings Array.push (.start strictSettings #[]) accountedBlocks).problems =
        #[.badFeedRate 1 (-1.0), .ambiguousArc 3, .unknownCode 4 "33"] ∧
      IsAccounted strictSettings Array.push #[] accountedBlocks := by
  have hfinite : (Machine.initial strictSettings).KeepsFinite strictSettings accountedBlocks := by
    decide +kernel
  refine ⟨hfinite, by decide +kernel, by decide +kernel, ?_⟩
  exact isAccounted_run strictSettings Array.push #[] accountedBlocks hfinite

end Interpretation

end Toolpath
