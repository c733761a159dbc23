import Mathlib.Data.Nat.Notation
import Mathlib.Tactic.SplitIfs
import Toolpath.Scalar.Single
import Toolpath.Simulation

/-!
# Strict and lenient readings

How strictly a program is read makes no difference but to the problems that are reported. A strict
reading reports codes that are unknown or not supported; a lenient one reports everything else, in
the same order.

* Only codes raise problems of codes: neither a feed rate (`Machine.codeFree_applyFeed`) nor an arc
  that cannot be drawn (`Machine.codeFree_motionOf`) does.
* A block has the same outcome in both readings, the problems of codes aside
  (`Machine.execute_lenient`), and so has a program (`Interpretation.run_lenient`).
* Everything after the interpretation does not look at problems, so both simulations agree on it
  (`simulate_lenient`).
-/

namespace Toolpath

variable {α σ : Type}

/-! ## Problems of codes -/

/-- Whether a problem is that of a code that is unknown or not supported. -/
def Problem.isOfCode : Problem α → Bool
  | .unsupportedCode .. => true
  | .unknownCode .. => true
  | _ => false

/-- Problems without those of codes, in order. -/
def dropCodeProblems (problems : List (Problem α)) : List (Problem α) :=
  problems.filter fun problem => !problem.isOfCode

/-- No problem of a code is among the problems. -/
def CodeFree (problems : List (Problem α)) : Prop :=
  ∀ problem ∈ problems, problem.isOfCode = false

/-- An outcome without the problems of codes. -/
def Outcome.dropCodes (o : Outcome α) : Outcome α :=
  { o with problems := dropCodeProblems o.problems }

/-- An interpretation without the problems of codes. -/
def Interpretation.dropCodes (i : Interpretation α σ) : Interpretation α σ :=
  { i with problems := (dropCodeProblems i.problems.toList).toArray }

/-- The same settings, for a reading of the given strictness. -/
def Settings.reading (s : Settings α) (strictness : Strictness) : Settings α :=
  { s with strictness }

theorem dropCodeProblems_append (front rest : List (Problem α)) :
    dropCodeProblems (front ++ rest) = dropCodeProblems front ++ dropCodeProblems rest :=
  List.filter_append front rest

theorem dropCodeProblems_of_codeFree {problems : List (Problem α)} (h : CodeFree problems) :
    dropCodeProblems problems = problems := by
  apply List.filter_eq_self.2
  intro problem hproblem
  rw [h problem hproblem]
  rfl

theorem codeFree_singleton {problem : Problem α} (h : problem.isOfCode = false) :
    CodeFree [problem] := by
  intro other hother
  rwa [List.mem_singleton.1 hother]

namespace Machine

/-- A lenient reading reports no code. -/
theorem codeProblem?_lenient (line : ℕ) (code : String) :
    (codeProblem? .lenient line code : Option (Problem α)) = none := rfl

/-- What a strict reading reports of a code is a problem of that code. -/
theorem isOfCode_codeProblem? {line : ℕ} {code : String} {problem : Problem α}
    (h : codeProblem? .strict line code = some problem) : problem.isOfCode = true := by
  unfold codeProblem? at h
  -- of the three kinds of codes only the unknown and the unsupported ones have a problem
  split at h
  · contradiction
  · cases h
    rfl
  · cases h
    rfl
  · contradiction

/-- The codes of a block set the same modes in both readings. A lenient one reports nothing, and
nothing is left of what a strict one reports. -/
theorem applyCodes_lenient (m : Machine α) (b : Block) :
    (m.applyCodes .lenient b).1 = (m.applyCodes .strict b).1 ∧
      (m.applyCodes .lenient b).2 = [] ∧
      dropCodeProblems (m.applyCodes .strict b).2 = [] := by
  refine ⟨rfl, ?_, ?_⟩
  · apply List.filterMap_eq_nil_iff.2
    intro w _
    exact codeProblem?_lenient b.line w.code
  · apply List.filter_eq_nil_iff.2
    intro problem hproblem
    obtain ⟨w, -, hw⟩ := List.mem_filterMap.1 hproblem
    rw [isOfCode_codeProblem? hw]
    decide

variable [Scalar α]

/-- A feed rate that is rejected is no problem of a code. -/
theorem codeFree_applyFeed (m : Machine α) (b : Block) : CodeFree (m.applyFeed b).2 := by
  unfold applyFeed
  split
  · exact fun problem hproblem => absurd hproblem List.not_mem_nil
  · split_ifs
    · exact fun problem hproblem => absurd hproblem List.not_mem_nil
    · exact codeFree_singleton rfl

/-- Neither is a circle that cannot be drawn. -/
theorem isOfCode_circle {m : Machine α} {b : Block} {target : Vec3 α} {clockwise : Bool}
    {problem : Problem α} (h : m.circle b target clockwise = .error problem) :
    problem.isOfCode = false := by
  unfold circle at h
  split at h
  · dsimp only at h
    split at h
    · contradiction
    · cases h
      rfl
  · dsimp only at h
    split_ifs at h
    · cases h
      rfl
    · cases h
      rfl

theorem isOfCode_arcMove {m : Machine α} {b : Block} {target : Vec3 α} {clockwise : Bool}
    {problem : Problem α} (h : (m.arcMove b target clockwise).map some = .error problem) :
    problem.isOfCode = false := by
  unfold arcMove at h
  rcases hcircle : m.circle b target clockwise with fault | circle
  · rw [hcircle] at h
    cases h
    exact isOfCode_circle hcircle
  · rw [hcircle] at h
    cases h

/-- A motion that fails is no problem of a code. -/
theorem codeFree_motionOf {m : Machine α} {s : MachineSettings α} {b : Block} {problem : Problem α}
    (h : m.motionOf s b = .error problem) : CodeFree [problem] := by
  apply codeFree_singleton
  unfold motionOf at h
  dsimp only at h
  split_ifs at h
  -- only arcs can fail
  split at h
  · cases h
  · cases h
  · exact isOfCode_arcMove h
  · exact isOfCode_arcMove h
  · cases h

/-! ## One block -/

/-- Both readings of a block come to the same, the problems of codes aside. -/
theorem execute_lenient (m : Machine α) (s : Settings α) (b : Block) :
    m.execute (s.reading .lenient) b = (m.execute (s.reading .strict) b).dropCodes := by
  obtain ⟨hmachine, hlenient, hstrict⟩ := (m.applyFeed b).1.applyCodes_lenient b
  have hfeed := dropCodeProblems_of_codeFree (m.codeFree_applyFeed b)
  unfold execute
  dsimp only [Settings.reading]
  rw [hmachine, hlenient]
  rcases hmotion : ((m.applyFeed b).1.applyCodes .strict b).1.motionOf s.machine b with
    problem | _ | move
  · have hfault := dropCodeProblems_of_codeFree (codeFree_motionOf hmotion)
    simp only [Outcome.dropCodes, dropCodeProblems_append, hfeed, hstrict, hfault]
  · simp only [Outcome.dropCodes, dropCodeProblems_append, hfeed, hstrict]
  · simp only [Outcome.dropCodes, dropCodeProblems_append, hfeed, hstrict]

/-- Of these three problems a lenient reading reports the first one only. -/
example : (((Machine.initial (Settings.default : Settings Float32)).execute
    (Settings.default.reading .strict)
    (.ofPairs 1 [('G', 21.0), ('F', -1.0), ('G', 33.0)])).problems) =
      [.badFeedRate 1 (-1.0), .unsupportedCode 1 "21", .unknownCode 1 "33"] := by
  decide +kernel

end Machine

/-! ## Programs -/

variable [Scalar α]

namespace Interpretation

/-- One more block keeps both readings alike. -/
theorem step_lenient (s : Settings α) (listen : σ → Move α → σ) (i : Interpretation α σ)
    (b : Block) :
    step (s.reading .lenient) listen i.dropCodes b =
      (step (s.reading .strict) listen i b).dropCodes := by
  have hexecute := i.machine.execute_lenient s b
  unfold step
  dsimp only [dropCodes]
  rw [hexecute]
  cases hmove : (i.machine.execute (s.reading .strict) b).move? with
  | none => simp [Outcome.dropCodes, hmove, dropCodeProblems_append]
  | some move => simp [Outcome.dropCodes, hmove, dropCodeProblems_append]

/-- Both readings of a program make the same path, leave the same machine and tell the listener the
same. -/
theorem run_lenient (s : Settings α) (listen : σ → Move α → σ) (i : Interpretation α σ)
    (p : Program) :
    run (s.reading .lenient) listen i.dropCodes p =
      (run (s.reading .strict) listen i p).dropCodes := by
  unfold run
  induction p generalizing i with
  | nil => rfl
  | cons b rest ih =>
    rw [List.foldl_cons, List.foldl_cons, step_lenient]
    exact ih _

end Interpretation

/-- A lenient simulation comes to what a strict one comes to, from the chains and the track to the
statistics, and it fails where the strict one does. Its problems are those of the strict one without
the problems of codes, in the same order. -/
theorem simulate_lenient (s : Settings α) (p : Program) :
    simulate (s.reading .lenient) p =
      (simulate (s.reading .strict) p).map fun sim =>
        { sim with problems := sim.problems.filter fun problem => !problem.isOfCode } := by
  have hinterpret : interpret (s.reading .lenient) p =
      (interpret (s.reading .strict) p).dropCodes :=
    Interpretation.run_lenient s Track.enter (.start (s.reading .strict) (.empty s.sampling)) p
  unfold simulate
  rw [hinterpret]
  dsimp only [Interpretation.dropCodes, Settings.reading]
  rcases planAndSample _ _ with fault | ⟨chains, sampler⟩
  · rfl
  · rfl

end Toolpath
