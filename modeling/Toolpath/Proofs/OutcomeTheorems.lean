import Toolpath.Proofs.DefinednessTheorems
import Toolpath.Proofs.SingleRoundingTheorems
import Toolpath.Proofs.VertexTheorems

/-!
# The outcome of a simulation

Machine numbers overflow, and a difference of infinities is no number. A simulation that comes to
clamp between such bounds fails; here it is said when.

* It fails exactly where a chain of the program is not defined (`exists_simulate_iff`), never for
  bounds that are numbers in the wrong order.
* Where the peaks of the chains stay finite, it fails exactly where a length is no number; where
  all moves are tame (`exists_simulate_of_isTame`), as straight ones between finite points are, it
  does not fail.
* Where it comes to an end, all places it has named are there (`isIndexed_simulate`).
-/

namespace Toolpath

open Scalar

section Rounding

variable {α : Type} [Scalar α]

/-- The chains of a program before planning. -/
def unplanned (s : Settings α) (p : Program) : List (Chain α) :=
  Chain.ofPath (interpret s p).path.toList s.machine.maxAcceleration

/-- The moves of the chains are those of the path, measured and limited. -/
theorem mem_unplanned {s : Settings α} {p : Program} {c : Chain α} (hc : c ∈ unplanned s p)
    {m : Move α} (hm : m ∈ c.moves) :
    ∃ drawn ∈ (interpret s p).path, m = drawn.limited s.machine.maxAcceleration := by
  have hflat : m ∈ (unplanned s p).flatMap Chain.moves := List.mem_flatMap.2 ⟨c, hc, hm⟩
  rw [unplanned, Chain.flatMap_ofPath] at hflat
  obtain ⟨drawn, hdrawn, rfl⟩ := List.mem_map.1 hflat
  exact ⟨drawn, Array.mem_toList_iff.1 hdrawn, rfl⟩

/-- A chain has a move. -/
theorem moves_ne_nil_unplanned (s : Settings α) (p : Program) :
    ∀ c ∈ unplanned s p, c.moves ≠ [] := by
  intro c hc
  rw [unplanned, Chain.ofPath] at hc
  obtain ⟨moves, hmoves, rfl⟩ := List.mem_map.1 hc
  exact List.ne_nil_of_mem_splitBy hmoves

/-- The chains of a simulation are those of the program, planned one by one. -/
theorem plans_simulate {s : Settings α} {p : Program} {sim : Simulation α}
    (h : simulate s p = .ok sim) :
    List.Forall₂ (fun c plan => c.plan = .ok plan) (unplanned s p) sim.chains := by
  obtain ⟨planned, sampler, hrun, rfl⟩ := simulate_eq_ok.1 h
  exact (planAndSample_eq_ok.1 hrun).1

/-- So has a planned one. -/
theorem moves_ne_nil_simulate {s : Settings α} {p : Program} {sim : Simulation α}
    (h : simulate s p = .ok sim) : ∀ c ∈ sim.chains, c.moves ≠ [] := by
  intro c hc
  obtain ⟨hlength, hplans⟩ := List.forall₂_iff_get.1 (plans_simulate h)
  obtain ⟨i, hi, rfl⟩ := List.getElem_of_mem hc
  have hi' : i < (unplanned s p).length := by omega
  have hlen := (replanned_plan (hplans i hi' hi)).1
  have hne := moves_ne_nil_unplanned s p _ (List.getElem_mem hi')
  rw [← List.length_pos_iff] at hne ⊢
  exact hlen ▸ hne

/-- Under accepted settings every origin has its offset. -/
theorem exists_offset {s : Settings α} (h : s.validate = .ok ()) (origin : Origin) :
    ∃ offset, s.machine.workOffsets[origin.val]? = some offset := by
  have hlength := (Settings.validate_eq_ok.1 h).workOffsets
  have hlt : origin.val < s.machine.workOffsets.length := by
    rw [hlength]
    exact origin.isLt
  exact ⟨_, List.getElem?_eq_getElem hlt⟩

variable [Rounding α]

/-- Under accepted settings planning starts from limits that are not below zero. -/
theorem isLimited_unplanned {s : Settings α} (h : s.validate = .ok ()) (p : Program) :
    ∀ c ∈ unplanned s p, ∀ m ∈ c.moves, m.IsLimited := by
  intro c hc m hm
  obtain ⟨drawn, hdrawn, rfl⟩ := mem_unplanned hc hm
  -- the path starts out empty
  have hpath : ∀ m ∈ (interpret s p).path, m.IsDrawn :=
    isDrawn_run (fun m hm => absurd hm (Array.not_mem_empty m)) p
  have hpositive := (Settings.validate_eq_ok.1 h).maxAcceleration.2
  exact (hpath drawn hdrawn).isLimited (num_le_of_lt hpositive)

/-- A program is simulated exactly where its chains are defined. -/
theorem exists_simulate_iff (s : Settings α) (p : Program) :
    (∃ sim, simulate s p = .ok sim) ↔ ∀ c ∈ unplanned s p, c.IsDefined s.sampling := by
  have hsettings : (Sampler.start (interpret s p).heard).track.settings = s.sampling := by
    show (interpret s p).heard.settings = s.sampling
    rw [heard_interpret]
    rfl
  rw [← hsettings, ← exists_planAndSample_iff]
  simp only [simulate_eq_ok]
  constructor
  · rintro ⟨_, planned, sampler, hrun, -⟩
    exact ⟨(planned, sampler), hrun⟩
  · rintro ⟨⟨planned, sampler⟩, hrun⟩
    exact ⟨_, planned, sampler, hrun, rfl⟩

/-- Where the peaks stay finite, this comes down to the lengths of the moves. -/
theorem exists_simulate_iff_isMeasured {s : Settings α} (h : s.validate = .ok ()) {p : Program}
    (htame : ∀ c ∈ unplanned s p, c.IsTame) :
    (∃ sim, simulate s p = .ok sim) ↔ ∀ c ∈ unplanned s p, c.IsMeasured := by
  rw [exists_simulate_iff]
  have hchain : ∀ c ∈ unplanned s p, (c.IsDefined s.sampling ↔ c.IsMeasured) := fun c hc =>
    (htame c hc).isDefined_iff (isLimited_unplanned h p c hc) s.sampling
  exact forall₂_congr hchain

/-- A program of tame moves is simulated. -/
theorem exists_simulate_of_isTame {s : Settings α} (h : s.validate = .ok ()) {p : Program}
    (htame : ∀ m ∈ (interpret s p).path, (m.limited s.machine.maxAcceleration).IsTame) :
    ∃ sim, simulate s p = .ok sim := by
  have hmoves : ∀ c ∈ unplanned s p, ∀ m ∈ c.moves, m.IsTame := by
    intro c hc m hm
    obtain ⟨drawn, hdrawn, rfl⟩ := mem_unplanned hc hm
    exact htame drawn hdrawn
  have hchains : ∀ c ∈ unplanned s p, c.IsTame := fun c hc =>
    Chain.IsTame.of_moves (isLimited_unplanned h p c hc) (hmoves c hc)
  exact (exists_simulate_iff_isMeasured h hchains).2 fun c hc m hm _ => (hmoves c hc m hm).length

end Rounding

/-! ## Single precision -/

/-- In single precision, under accepted settings: all places that a simulation names are there, it
fails exactly where a bound of a clamp is no number, and where the peaks stay finite, exactly
where a length is none. -/
theorem simulate_outcome (s : Settings Float32) (p : Program) (h : s.validate = .ok ()) :
    (∀ origin : Origin, ∃ offset, s.machine.workOffsets[origin.val]? = some offset) ∧
    (∀ sim, simulate s p = .ok sim → sim.IsIndexed) ∧
    ((∃ sim, simulate s p = .ok sim) ↔ ∀ c ∈ unplanned s p, c.IsDefined s.sampling) ∧
    ((∀ c ∈ unplanned s p, c.IsTame) →
      ((∃ sim, simulate s p = .ok sim) ↔ ∀ c ∈ unplanned s p, c.IsMeasured)) ∧
    ((∀ m ∈ (interpret s p).path, (m.limited s.machine.maxAcceleration).IsTame) →
      ∃ sim, simulate s p = .ok sim) :=
  ⟨exists_offset h, fun _ hsim => isIndexed_simulate hsim, exists_simulate_iff s p,
    exists_simulate_iff_isMeasured h, exists_simulate_of_isTame h⟩

/-- Under the default settings a straight line between finite points is tame, so it is simulated. It
is one move. -/
theorem simulate_outcome_line : (Settings.default : Settings Float32).validate = .ok () ∧
    ∃ sim, simulate (Settings.default : Settings Float32) [.ofPairs 1 [('X', 1.0)]] = .ok sim ∧
      sim.IsIndexed ∧ (interpret (Settings.default : Settings Float32)
        [.ofPairs 1 [('X', 1.0)]]).path.size = 1 := by
  have hvalid : (Settings.default : Settings Float32).validate = .ok () := by decide +kernel
  have hdouble : isFinite (2.0 * (Settings.default : Settings Float32).machine.maxAcceleration) =
      true := by decide +kernel
  have hfinite : ∀ m ∈ (interpret (Settings.default : Settings Float32)
      [.ofPairs 1 [('X', 1.0)]]).path, m.shape = .line ∧
      (isFinite m.source.x = true ∧ isFinite m.source.y = true ∧ isFinite m.source.z = true) ∧
      (isFinite m.target.x = true ∧ isFinite m.target.y = true ∧ isFinite m.target.z = true) ∧
      isFinite (perSecond m.feedRate * perSecond m.feedRate) = true := by
    decide +kernel
  have hstraight : ∀ m ∈ (interpret (Settings.default : Settings Float32)
      [.ofPairs 1 [('X', 1.0)]]).path, m.IsStraight := by
    intro m hm
    obtain ⟨hshape, ⟨hx, hy, hz⟩, ⟨hx', hy', hz'⟩, hspeed⟩ := hfinite m hm
    exact ⟨hshape, ⟨hx, hy, hz⟩, ⟨hx', hy', hz'⟩, hspeed⟩
  obtain ⟨-, hindexed, -, -, htame⟩ :=
    simulate_outcome Settings.default [.ofPairs 1 [('X', 1.0)]] hvalid
  obtain ⟨sim, hsim⟩ := htame fun m hm => (hstraight m hm).isTame hdouble
  exact ⟨hvalid, sim, hsim, hindexed sim hsim, by decide +kernel⟩

/-- Two lines around a corner are simulated too. -/
theorem exists_simulate_corner : ∃ sim, simulate (Settings.default : Settings Float32)
    [.ofPairs 1 [('X', 1.0)], .ofPairs 2 [('Y', 1.0)]] = .ok sim :=
  exists_simulate_of_toBool (by decide +kernel)

/-- Two moves to an infinite coordinate: the length of the second is no number. -/
theorem simulate_overflow : (Settings.default : Settings Float32).validate = .ok () ∧
    simulate (Settings.default : Settings Float32)
      [.ofPairs 1 [('X', 1e39)], .ofPairs 2 [('X', 1e39), ('Y', 1.0)]] = .error .unordered := by
  refine ⟨by decide +kernel, ?_⟩
  -- a failure is easier to evaluate than to compare
  have hfails : (simulate (Settings.default : Settings Float32)
      [.ofPairs 1 [('X', 1e39)], .ofPairs 2 [('X', 1e39), ('Y', 1.0)]]).toBool = false := by
    decide +kernel
  rcases hsim : simulate (Settings.default : Settings Float32)
      [.ofPairs 1 [('X', 1e39)], .ofPairs 2 [('X', 1e39), ('Y', 1.0)]] with ⟨⟨⟩⟩ | sim
  · rfl
  · rw [hsim] at hfails
    cases hfails

end Toolpath
