import Mathlib.Algebra.Order.BigOperators.Group.List
import Mathlib.Tactic.Linarith
import Toolpath.Passage
import Toolpath.Proofs.PlanTheorems

/-!
# The phases of a profile

A profile is read back by the phase that holds a distance. There is one at every distance as soon as
there is a phase at all (`exists_phaseAt?`), and it is one of the phases that planning has cut
between the bounds of the crest (`mem_phasesBetween`).
-/

namespace Toolpath

variable {α : Type} [Scalar α]

/-- The phases between the bounds of a crest gain, keep and lose speed, and none is empty. -/
theorem mem_phasesBetween {m : Move α} {peakSq accelStop decelStart entrySq exitSq : α}
    {p : Phase α} (hp : p ∈ phasesBetween m peakSq accelStop decelStart entrySq exitSq) :
    (0.0 < accelStop ∧ p = .timed .accel 0.0 accelStop entrySq peakSq peakSq m.maxAccel) ∨
    (accelStop < decelStart ∧
      p = .timed .const accelStop decelStart peakSq peakSq peakSq m.maxAccel) ∨
    (decelStart < m.length ∧
      p = .timed .decel decelStart m.length peakSq exitSq peakSq m.maxAccel) := by
  rw [phasesBetween, List.mem_append, List.mem_append] at hp
  rcases hp with (hp | hp) | hp
  · split_ifs at hp with hlt
    · exact .inl ⟨hlt, List.mem_singleton.1 hp⟩
    · exact absurd hp List.not_mem_nil
  · split_ifs at hp with hlt
    · exact .inr (.inl ⟨hlt, List.mem_singleton.1 hp⟩)
    · exact absurd hp List.not_mem_nil
  · split_ifs at hp with hlt
    · exact .inr (.inr ⟨hlt, List.mem_singleton.1 hp⟩)
    · exact absurd hp List.not_mem_nil

theorem phaseAt?_cons_cons (x elapsed : α) (p q : Phase α) (rest : List (Phase α)) :
    phaseAt? x elapsed (p :: q :: rest) =
      if x ≤ p.stop then some (elapsed, p)
      else phaseAt? x (elapsed + p.duration) (q :: rest) := rfl

/-- The phase at a distance is one of the phases. -/
theorem mem_of_phaseAt? {x elapsed before : α} {phases : List (Phase α)} {p : Phase α}
    (h : phaseAt? x elapsed phases = some (before, p)) : p ∈ phases := by
  induction phases generalizing elapsed with
  | nil => cases h
  | cons q rest ih =>
    cases rest with
    | nil =>
      cases h
      exact List.mem_cons_self
    | cons r rest =>
      rw [phaseAt?_cons_cons] at h
      split_ifs at h
      · cases h
        exact List.mem_cons_self
      · exact List.mem_cons_of_mem q (ih h)

/-- Where there are phases, one of them is at every distance. -/
theorem exists_phaseAt? {x elapsed : α} {phases : List (Phase α)} (h : phases ≠ []) :
    ∃ found, phaseAt? x elapsed phases = some found := by
  induction phases generalizing elapsed with
  | nil => exact absurd rfl h
  | cons p rest ih =>
    cases rest with
    | nil => exact ⟨_, rfl⟩
    | cons q rest =>
      rw [phaseAt?_cons_cons]
      split_ifs
      · exact ⟨_, rfl⟩
      · exact ih (List.cons_ne_nil q rest)

/-- Over the reals the times of the phases add up. -/
theorem foldl_duration (phases : List (Phase ℝ)) (elapsed : ℝ) :
    phases.foldl (fun t p => t + p.duration) elapsed =
      elapsed + (phases.map (·.duration)).sum := by
  induction phases generalizing elapsed with
  | nil => simp
  | cons p rest ih => rw [List.foldl_cons, ih, List.map_cons, List.sum_cons, add_assoc]

end Toolpath
