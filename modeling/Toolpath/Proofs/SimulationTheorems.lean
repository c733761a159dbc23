import Mathlib.Data.List.SplitBy
import Toolpath.Simulation
import Toolpath.Proofs.InterpretationTheorems
import Toolpath.Proofs.SamplerTheorems
import Toolpath.Proofs.SettingsTheorems

/-!
# The chains of a simulation

A path is split into chains by its directions alone (`Chain.ofPath_eq_map`), and the chains hold
its moves in order (`Chain.flatMap_ofPath`), numbered as the program gives them
(`isNumbered_interpret`).

A simulation plans and samples chain after chain. It comes to an end where all chains can be planned
and the planned ones sampled in order (`simulate_eq_ok`, `planAndSample_eq_ok`).
-/

namespace Toolpath

open Scalar

/-! ## Chains of a path -/

section Split

variable {β γ : Type} {R : β → γ → Prop} {r : β → β → Bool} {s : γ → γ → Bool}

/-- The stretch that is still open, and those that are done, are kept in reverse. -/
theorem forall₂_splitBy_loop (hcut : ∀ a b a' b', R a a' → R b b' → r a b = s a' b') {l : List β}
    {l' : List γ} (h : List.Forall₂ R l l') {a : β} {a' : γ} (ha : R a a') {g : List β}
    {g' : List γ} (hg : List.Forall₂ R g g') {gs : List (List β)} {gs' : List (List γ)}
    (hgs : List.Forall₂ (List.Forall₂ R) gs gs') :
    List.Forall₂ (List.Forall₂ R) (List.splitBy.loop r l a g gs)
      (List.splitBy.loop s l' a' g' gs') := by
  induction h generalizing a a' g g' gs gs' with
  | nil =>
    rw [List.splitBy.loop, List.splitBy.loop]
    exact List.forall₂_reverse_iff.2 (.cons (List.forall₂_reverse_iff.2 (.cons ha hg)) hgs)
  | cons hb _ ih =>
    rw [List.splitBy.loop, List.splitBy.loop, hcut _ _ _ _ ha hb]
    split
    · exact ih hb (.cons ha hg) hgs
    · exact ih hb .nil (.cons (List.forall₂_reverse_iff.2 (.cons ha hg)) hgs)

/-- Lists that are related element by element are split at the same places. -/
theorem forall₂_splitBy (hcut : ∀ a b a' b', R a a' → R b b' → r a b = s a' b') {l : List β}
    {l' : List γ} (h : List.Forall₂ R l l') :
    List.Forall₂ (List.Forall₂ R) (l.splitBy r) (l'.splitBy s) := by
  cases h with
  | nil => exact .nil
  | cons ha hrest => exact forall₂_splitBy_loop hcut hrest ha .nil .nil

theorem forall₂_eq_map {f : β → γ} {l : List β} {l' : List γ} :
    List.Forall₂ (fun a b => f a = b) l l' ↔ l.map f = l' := by
  rw [← List.forall₂_map_left_iff (R := Eq), List.forall₂_eq_eq_eq]

/-- Elements that are mapped are split where they were before. -/
theorem splitBy_map {f : β → γ} (hcut : ∀ a b, s (f a) (f b) = r a b) (l : List β) :
    (l.map f).splitBy s = (l.splitBy r).map (List.map f) := by
  have hsplit := forall₂_splitBy (r := r) (s := s)
    (by rintro a b _ _ rfl rfl; exact (hcut a b).symm) (forall₂_eq_map.2 (rfl : l.map f = l.map f))
  exact (forall₂_eq_map.1 (hsplit.imp fun _ _ => forall₂_eq_map.1)).symm

theorem mem_of_mem_splitBy {l stretch : List β} {b : β} (hstretch : stretch ∈ l.splitBy r)
    (hb : b ∈ stretch) : b ∈ l := by
  rw [← List.flatten_splitBy r l]
  exact List.mem_flatten.2 ⟨stretch, hstretch, hb⟩

end Split

/-- The chain of some moves of a path, measured and limited. -/
def Chain.limited {α : Type} [Scalar α] (moves : List (Move α)) (acceleration : α) : Chain α :=
  ⟨moves.map (·.limited acceleration)⟩

/-- Where a path is split does not depend on the limits of its moves. -/
theorem Chain.ofPath_eq_map {α : Type} [Scalar α] (path : List (Move α)) (acceleration : α) :
    Chain.ofPath path acceleration =
      (path.splitBy Move.flowsInto).map (Chain.limited · acceleration) := by
  rw [Chain.ofPath, splitBy_map (f := (Move.limited · acceleration)) (r := Move.flowsInto)
    fun _ _ => rfl, List.map_map]
  rfl

/-- The chains of a path hold its moves, measured and limited, in order. -/
theorem Chain.flatMap_ofPath {α : Type} [Scalar α] (path : List (Move α)) (acceleration : α) :
    (Chain.ofPath path acceleration).flatMap Chain.moves = path.map (·.limited acceleration) := by
  rw [Chain.ofPath, List.flatMap_map]
  show List.flatMap id _ = _
  rw [List.flatMap_id, List.flatten_splitBy]

/-- The moves of a program are numbered in order, through all chains. -/
theorem isNumbered_interpret {α : Type} [Scalar α] (s : Settings α) (p : Program) :
    IsNumbered 0 ((Chain.ofPath (interpret s p).path.toList s.machine.maxAcceleration).flatMap
      Chain.moves) := by
  rw [Chain.flatMap_ofPath]
  intro k hk
  rw [List.length_map, Array.length_toList] at hk
  rw [List.getElem_map, Array.getElem_toList, Nat.zero_add]
  exact index_interpret s p hk

/-- Whether a program is simulated can be decided by running it. -/
theorem exists_simulate_of_toBool {α : Type} [Scalar α] {s : Settings α} {p : Program}
    (h : (simulate s p).toBool = true) : ∃ sim, simulate s p = .ok sim := by
  rcases hrun : simulate s p with fault | sim
  · rw [hrun] at h
    contradiction
  · exact ⟨sim, rfl⟩

/-- So can what comes of it. -/
theorem exists_simulate_of_toOption {α : Type} [Scalar α] {s : Settings α} {p : Program}
    {P : Simulation α → Prop} (h : ∃ sim ∈ (simulate s p).toOption, P sim) :
    ∃ sim, simulate s p = .ok sim ∧ P sim := by
  obtain ⟨sim, hmem, hP⟩ := h
  rcases hrun : simulate s p with fault | found
  · rw [hrun] at hmem
    cases hmem
  · rw [hrun] at hmem
    cases hmem
    exact ⟨_, rfl, hP⟩

/-- A simulation comes to what planning and sampling its chains comes to. -/
theorem simulate_eq_ok {α : Type} [Scalar α] {s : Settings α} {p : Program}
    {sim : Simulation α} :
    simulate s p = .ok sim ↔ ∃ planned sampler,
      planAndSample (.start (interpret s p).heard)
          (Chain.ofPath (interpret s p).path.toList s.machine.maxAcceleration)
        = .ok (planned, sampler) ∧
      sim = ⟨planned, sampler.track.close, sampler.clock, sampler.box, sampler.sampleCount,
        (interpret s p).problems.toList⟩ := by
  rw [simulate]
  dsimp only
  rw [bind_eq_ok]
  constructor
  · rintro ⟨⟨planned, sampler⟩, hrun, hsim⟩
    exact ⟨planned, sampler, hrun, (Except.ok.inj hsim).symm⟩
  · rintro ⟨planned, sampler, hrun, rfl⟩
    exact ⟨(planned, sampler), hrun, rfl⟩

/-- Planning and sampling goes chain by chain, so that the planned chains are sampled in order. -/
theorem planAndSample_eq_ok {α : Type} [Scalar α] {s s' : Sampler α}
    {chains planned : List (Chain α)} : planAndSample s chains = .ok (planned, s') ↔
      List.Forall₂ (fun c plan => c.plan = .ok plan) chains planned ∧
        planned.foldlM Sampler.sampleChain s = .ok s' := by
  induction chains generalizing s planned with
  | nil =>
    rw [planAndSample]
    constructor
    · intro h
      cases h
      exact ⟨.nil, rfl⟩
    · rintro ⟨hplan, hrun⟩
      cases hplan
      cases hrun
      rfl
  | cons c rest ih =>
    simp only [planAndSample, bind_eq_ok]
    constructor
    · rintro ⟨plan, hplan, u, hu, ⟨plans, u'⟩, hrest, hout⟩
      cases hout
      obtain ⟨hplans, hrun⟩ := ih.1 hrest
      exact ⟨.cons hplan hplans, by rw [List.foldlM_cons, bind_eq_ok]; exact ⟨u, hu, hrun⟩⟩
    · rintro ⟨_ | ⟨hplan, hplans⟩, hrun⟩
      rw [List.foldlM_cons, bind_eq_ok] at hrun
      obtain ⟨u, hu, hrun⟩ := hrun
      exact ⟨_, hplan, u, hu, (_, s'), ih.2 ⟨hplans, hrun⟩, rfl⟩

end Toolpath
