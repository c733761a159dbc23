import Toolpath.Proofs.OffsetTheorems

/-!
# Dropped arcs

An arc that cannot be drawn leaves no trace but its report. Its line has already set the feed rate
and the modes when the arc is tried, and these stay; the motion is given up as a whole.

* Words for the axes count in the motion of a block only (`Machine.prepared_withoutAxes`,
  `Machine.reports_withoutAxes`).
* However an arc fails, its problem belongs to the line and drops its motion
  (`Machine.dropsMotion_circle`), and a block fails only so (`Machine.losesArc_iff`).
* What has been reported has no influence on what follows (`Interpretation.run_reporting`), so a
  program goes on behind a dropped arc as behind the same line without its axis words
  (`Interpretation.drops_of_losesArc`).
-/

namespace Toolpath

variable {α σ : Type}

/-! ## Blocks without axis words -/

/-- The mode of arcs in a direction. -/
def MotionMode.ofArc (clockwise : Bool) : MotionMode :=
  if clockwise then .clockwise else .counterClockwise

/-- Whether a word gives a coordinate. -/
def Word.isAxis (w : Word) : Bool := w.letter = 'X' || w.letter = 'Y' || w.letter = 'Z'

namespace Block

/-- The same block without the words that give a coordinate. -/
def withoutAxes (b : Block) : Block := { b with words := b.words.filter fun w => !w.isAxis }

theorem word?_withoutAxes (b : Block) (letter : Char) :
    b.withoutAxes.word? letter =
      b.words.reverse.find? fun w => !w.isAxis && decide (w.letter = letter.toUpper) := by
  unfold word? withoutAxes
  rw [← List.filter_reverse, List.find?_filter]
  simp

theorem word?_withoutAxes_of_ne (b : Block) {letter : Char}
    (h : ∀ axis : Axis, letter.toUpper ≠ axis.letter) :
    b.withoutAxes.word? letter = b.word? letter := by
  rw [word?_withoutAxes]
  unfold word?
  congr 1
  funext w
  by_cases hletter : w.letter = letter.toUpper
  · have hx := h .x
    have hy := h .y
    have hz := h .z
    unfold Axis.letter at hx hy hz
    simp [Word.isAxis, hletter, hx, hy, hz]
  · simp [hletter]

theorem word?_withoutAxes_axis (b : Block) (axis : Axis) :
    b.withoutAxes.word? axis.letter = none := by
  rw [word?_withoutAxes, List.find?_eq_none]
  intro w _
  cases axis with
  | x => simp +contextual [Word.isAxis, Axis.letter]
  | y => simp +contextual [Word.isAxis, Axis.letter]
  | z => simp +contextual [Word.isAxis, Axis.letter]

theorem codeWords_withoutAxes (b : Block) : b.withoutAxes.codeWords = b.codeWords := by
  unfold codeWords withoutAxes
  rw [List.filter_filter]
  congr 1
  funext w
  by_cases hletter : w.letter = 'G'
  · simp [Word.isAxis, hletter]
  · simp [hletter]

variable [Scalar α]

theorem value?_withoutAxes_of_ne (b : Block) {letter : Char}
    (h : ∀ axis : Axis, letter.toUpper ≠ axis.letter) :
    (b.withoutAxes.value? letter : Option α) = b.value? letter := by
  unfold value?
  rw [b.word?_withoutAxes_of_ne h]

/-- The axis words of a block are empty where it names no axis. -/
theorem isEmpty_axisWords (b : Block) :
    (b.axisWords : AxisWords α).isEmpty = false ↔ b.NamesAxis := by
  have hnone : ∀ axis : Axis, (b.value? axis.letter : Option α).isNone = true ↔
      ¬ (b.word? axis.letter).isSome := by
    intro axis
    unfold value?
    cases b.word? axis.letter <;> simp
  have hempty : (b.axisWords : AxisWords α).isEmpty = true ↔
      ∀ axis : Axis, ¬ (b.word? axis.letter).isSome := by
    show ((b.value? Axis.x.letter : Option α).isNone &&
      (b.value? Axis.y.letter : Option α).isNone &&
      (b.value? Axis.z.letter : Option α).isNone) = true ↔ _
    rw [Bool.and_eq_true, Bool.and_eq_true, hnone, hnone, hnone]
    constructor
    · rintro ⟨⟨hx, hy⟩, hz⟩ axis
      cases axis with
      | x => exact hx
      | y => exact hy
      | z => exact hz
    · exact fun h => ⟨⟨h .x, h .y⟩, h .z⟩
  rw [← Bool.not_eq_true, hempty]
  unfold NamesAxis
  push Not
  rfl

theorem isEmpty_axisWords_withoutAxes (b : Block) :
    (b.withoutAxes.axisWords : AxisWords α).isEmpty = true := by
  by_contra hsome
  obtain ⟨axis, haxis⟩ := (b.withoutAxes.isEmpty_axisWords).1 (Bool.eq_false_iff.2 hsome)
  rw [word?_withoutAxes_axis] at haxis
  cases haxis

end Block

/-! ## One block -/

namespace Machine

variable [Scalar α] {m : Machine α} {s : Settings α} {b : Block} {problem : Problem α}

/-- The problems of the feed rate and the codes of a block. -/
def reports (m : Machine α) (s : Settings α) (b : Block) : List (Problem α) :=
  (m.applyFeed b).2 ++ ((m.applyFeed b).1.applyCodes s.strictness b).2

theorem execute_of_error (h : (m.prepared s b).motionOf s.machine b = .error problem) :
    m.execute s b = ⟨m.prepared s b, none, m.reports s b ++ [problem]⟩ := by
  unfold prepared at h ⊢
  unfold execute reports
  dsimp only
  rw [h]

theorem execute_of_none (h : (m.prepared s b).motionOf s.machine b = .ok none) :
    m.execute s b = ⟨m.prepared s b, none, m.reports s b⟩ := by
  unfold prepared at h ⊢
  unfold execute reports
  dsimp only
  rw [h]

theorem execute_of_some {move : Move α}
    (h : (m.prepared s b).motionOf s.machine b = .ok (some move)) :
    m.execute s b =
      ⟨{ m.prepared s b with position := move.target }, some move, m.reports s b⟩ := by
  unfold prepared at h ⊢
  unfold execute reports
  dsimp only
  rw [h]

theorem applyFeed_withoutAxes (m : Machine α) (b : Block) :
    m.applyFeed b.withoutAxes = m.applyFeed b := by
  have hvalue : (b.withoutAxes.value? 'F' : Option α) = b.value? 'F' := by
    apply b.value?_withoutAxes_of_ne
    intro axis
    cases axis <;> decide
  unfold applyFeed
  rw [hvalue]
  rfl

omit [Scalar α] in
theorem applyCodes_withoutAxes (m : Machine α) (s : Strictness) (b : Block) :
    m.applyCodes s b.withoutAxes = m.applyCodes s b := by
  unfold applyCodes
  rw [b.codeWords_withoutAxes]
  rfl

theorem prepared_withoutAxes (m : Machine α) (s : Settings α) (b : Block) :
    m.prepared s b.withoutAxes = m.prepared s b := by
  unfold prepared
  rw [applyFeed_withoutAxes, applyCodes_withoutAxes]

theorem reports_withoutAxes (m : Machine α) (s : Settings α) (b : Block) :
    m.reports s b.withoutAxes = m.reports s b := by
  unfold reports
  rw [applyFeed_withoutAxes, applyCodes_withoutAxes]

/-- Without its axis words a block does nothing but to set the feed rate and the modes. -/
theorem execute_withoutAxes (m : Machine α) (s : Settings α) (b : Block) :
    m.execute s b.withoutAxes = ⟨m.prepared s b, none, m.reports s b⟩ := by
  have hmotion : (m.prepared s b.withoutAxes).motionOf s.machine b.withoutAxes = .ok none := by
    unfold motionOf
    dsimp only
    rw [if_pos b.isEmpty_axisWords_withoutAxes]
  rw [execute_of_none hmotion, prepared_withoutAxes, reports_withoutAxes]

/-! ## Arcs that cannot be drawn -/

/-- The problem of a circle that cannot be drawn belongs to its line and drops the motion. -/
theorem dropsMotion_circle {target : Vec3 α} {clockwise : Bool}
    (h : m.circle b target clockwise = .error problem) :
    problem.line = b.line ∧ problem.dropsMotion = true := by
  unfold circle at h
  split at h
  · dsimp only at h
    split at h
    · cases h
    · cases h
      exact ⟨rfl, rfl⟩
  · dsimp only at h
    split_ifs at h
    · cases h
      exact ⟨rfl, rfl⟩
    · cases h
      exact ⟨rfl, rfl⟩

/-- An arc without radius and centre is ambiguous. -/
theorem circle_of_value?_eq_none {target : Vec3 α} {clockwise : Bool}
    (hradius : (b.value? 'R' : Option α) = none)
    (hcenter : ∀ axis : Axis, (b.value? axis.centerLetter : Option α) = none) :
    m.circle b target clockwise = .error (.ambiguousArc b.line) := by
  unfold circle
  rw [hradius, hcenter, hcenter]
  rfl

/-- A block asks for an arc, and the circle of the arc cannot be drawn. -/
def LosesArc (m : Machine α) (s : MachineSettings α) (b : Block) (problem : Problem α) : Prop :=
  b.NamesAxis ∧ ∃ clockwise, m.motion = MotionMode.ofArc clockwise ∧
    m.circle b (m.targetOf s b.axisWords) clockwise = .error problem

theorem arcMove_eq_error {target : Vec3 α} {clockwise : Bool} :
    (m.arcMove b target clockwise).map some = .error problem ↔
      m.circle b target clockwise = .error problem := by
  unfold arcMove
  rcases m.circle b target clockwise with fault | circle
  · constructor
    · rintro ⟨⟩
      rfl
    · rintro ⟨⟩
      rfl
  · constructor <;> rintro ⟨⟩

/-- The motion of a block fails on an arc and on nothing else. -/
theorem losesArc_iff {s : MachineSettings α} :
    m.LosesArc s b problem ↔ m.motionOf s b = .error problem := by
  unfold LosesArc motionOf
  dsimp only
  by_cases hnames : b.NamesAxis
  · rw [if_neg (Bool.eq_false_iff.1 (b.isEmpty_axisWords.2 hnames))]
    cases m.motion with
    | rapid => simp [MotionMode.ofArc]
    | linear => simp [MotionMode.ofArc]
    | clockwise => simp [MotionMode.ofArc, hnames, arcMove_eq_error]
    | counterClockwise => simp [MotionMode.ofArc, hnames, arcMove_eq_error]
    | cancel => simp [MotionMode.ofArc]
  · rw [if_pos (Bool.of_not_eq_false (mt b.isEmpty_axisWords.1 hnames))]
    simp [hnames]

theorem LosesArc.dropsMotion {s : MachineSettings α} (h : m.LosesArc s b problem) :
    problem.line = b.line ∧ problem.dropsMotion = true := by
  obtain ⟨-, clockwise, -, hcircle⟩ := h
  exact dropsMotion_circle hcircle

/-- With an arc that cannot be drawn a block comes to what it comes to without its axis words, and
reports the arc. -/
theorem LosesArc.execute_eq (h : (m.prepared s b).LosesArc s.machine b problem) :
    m.execute s b = { m.execute s b.withoutAxes with
      problems := (m.execute s b.withoutAxes).problems ++ [problem] } := by
  rw [execute_of_error (losesArc_iff.1 h), execute_withoutAxes]

end Machine

/-! ## Programs -/

namespace Interpretation

variable [Scalar α] {s : Settings α} {listen : σ → Move α → σ} {i : Interpretation α σ} {b : Block}
  {problem : Problem α}

/-- An interpretation with problems in front of its own. -/
def reporting (earlier : Array (Problem α)) (i : Interpretation α σ) : Interpretation α σ :=
  { i with problems := earlier ++ i.problems }

theorem step_reporting (s : Settings α) (listen : σ → Move α → σ) (earlier : Array (Problem α))
    (i : Interpretation α σ) (b : Block) :
    step s listen (i.reporting earlier) b = (step s listen i b).reporting earlier := by
  have hproblems : earlier ++ i.problems ++ (i.machine.execute s b).problems =
      earlier ++ (i.problems ++ (i.machine.execute s b).problems) := by
    apply Array.toList_inj.1
    simp
  cases hmove : (i.machine.execute s b).move? with
  | none =>
    have hsame : ((i.reporting earlier).machine.execute s b).move? = none := hmove
    rw [step_of_none hmove, step_of_none hsame]
    exact congrArg (Interpretation.mk _ _ · _) hproblems
  | some move =>
    have hsame : ((i.reporting earlier).machine.execute s b).move? = some move := hmove
    rw [step_of_some hmove, step_of_some hsame]
    exact congrArg (Interpretation.mk _ _ · _) hproblems

/-- What has been reported makes no difference to what follows. -/
theorem run_reporting (s : Settings α) (listen : σ → Move α → σ) (earlier : Array (Problem α))
    (i : Interpretation α σ) (p : Program) :
    run s listen (i.reporting earlier) p = (run s listen i p).reporting earlier := by
  unfold run
  induction p generalizing i with
  | nil => rfl
  | cons b rest ih => rw [List.foldl_cons, List.foldl_cons, step_reporting, ih]

/-- A block has left no trace but its report: it comes to what it comes to without its axis words,
whatever program follows, and its problem stands between the earlier problems and the later ones. -/
structure Drops (s : Settings α) (listen : σ → Move α → σ) (i : Interpretation α σ) (b : Block)
    (problem : Problem α) : Prop where
  line_eq : problem.line = b.line
  dropsMotion : problem.dropsMotion = true
  step_eq : step s listen i b = { step s listen i b.withoutAxes with
    problems := (step s listen i b.withoutAxes).problems.push problem }
  position_eq : (step s listen i b).machine.position = i.machine.position
  path_eq : (step s listen i b).path = i.path
  heard_eq : (step s listen i b).heard = i.heard
  run_eq : ∀ rest, ∃ later,
    (run s listen i (b.withoutAxes :: rest)).problems =
      (step s listen i b.withoutAxes).problems ++ later ∧
    run s listen i (b :: rest) = { run s listen i (b.withoutAxes :: rest) with
      problems := (step s listen i b.withoutAxes).problems.push problem ++ later }

/-- A block whose arc cannot be drawn makes no move. -/
theorem step_of_losesArc (h : (i.machine.prepared s b).LosesArc s.machine b problem) :
    step s listen i b = { step s listen i b.withoutAxes with
      problems := (step s listen i b.withoutAxes).problems.push problem } := by
  have hmove : (i.machine.execute s b.withoutAxes).move? = none := by
    rw [Machine.execute_withoutAxes]
  have hlost : (i.machine.execute s b).move? = none := by rw [h.execute_eq, hmove]
  have hproblems : i.problems ++ ((i.machine.execute s b.withoutAxes).problems ++ [problem]) =
      (i.problems ++ (i.machine.execute s b.withoutAxes).problems).push problem := by
    apply Array.toList_inj.1
    simp
  rw [step_of_none hmove, step_of_none hlost, h.execute_eq]
  exact congrArg (Interpretation.mk _ _ · _) hproblems

/-- A dropped arc leaves no trace but its report. -/
theorem drops_of_losesArc (s : Settings α) (listen : σ → Move α → σ) (i : Interpretation α σ)
    (b : Block) (problem : Problem α)
    (h : (i.machine.prepared s b).LosesArc s.machine b problem) : Drops s listen i b problem := by
  have hstep : step s listen i b = { step s listen i b.withoutAxes with
      problems := (step s listen i b.withoutAxes).problems.push problem } := step_of_losesArc h
  have hplain : step s listen i b.withoutAxes =
      { i with
        machine := i.machine.prepared s b
        problems := i.problems ++ (i.machine.reports s b) } := by
    rw [step_of_none (by rw [Machine.execute_withoutAxes]), Machine.execute_withoutAxes]
  obtain ⟨hline, hdrops⟩ := h.dropsMotion
  refine ⟨hline, hdrops, hstep, ?_, ?_, ?_, fun rest => ?_⟩
  · rw [hstep, hplain]
    exact i.machine.prepared_position s b
  · rw [hstep, hplain]
  · rw [hstep, hplain]
  · -- both runs go on from one place where nothing has been reported yet
    let silent : Interpretation α σ := { step s listen i b.withoutAxes with problems := #[] }
    have hbefore : ∀ earlier, { step s listen i b.withoutAxes with problems := earlier } =
        silent.reporting earlier := by
      intro earlier
      simp [silent, reporting]
    have hwithout : run s listen i (b.withoutAxes :: rest) =
        (run s listen silent rest).reporting (step s listen i b.withoutAxes).problems := by
      rw [← run_reporting, ← hbefore]
      rfl
    have hwith : run s listen i (b :: rest) = (run s listen silent rest).reporting
        ((step s listen i b.withoutAxes).problems.push problem) := by
      rw [← run_reporting, ← hbefore, ← hstep]
      rfl
    refine ⟨(run s listen silent rest).problems, ?_, ?_⟩
    · rw [hwithout]
      rfl
    · rw [hwith, hwithout]
      rfl

/-- An arc without radius and centre, behind a mode and a feed rate that stay. -/
def lostBlock : Block := .ofPairs 7 [('G', 91.0), ('F', 250.0), ('G', 2.0), ('X', 10.0)]

/-- The arc is dropped, and the two lines behind it go on from where it started. -/
theorem drops_lostBlock :
    ((Machine.initial (Settings.default : Settings Float32)).prepared .default
        lostBlock).LosesArc Settings.default.machine lostBlock (.ambiguousArc 7) ∧
      Drops (Settings.default : Settings Float32) Array.push (.start .default #[]) lostBlock
        (.ambiguousArc 7) := by
  have hlost : ((Machine.initial (Settings.default : Settings Float32)).prepared .default
      lostBlock).LosesArc Settings.default.machine lostBlock (.ambiguousArc 7) := by
    refine ⟨⟨.x, by decide⟩, true, by decide +kernel, Machine.circle_of_value?_eq_none rfl ?_⟩
    intro axis
    cases axis <;> rfl
  exact ⟨hlost, drops_of_losesArc .default Array.push (.start .default #[]) lostBlock _ hlost⟩

end Interpretation

end Toolpath
