import Toolpath.Proofs.PathTheorems

/-!
# Modes in force

The codes of a block set modes, one after the other, and nothing else sets them: neither the feed
rate of the block nor its motion does. So behind any program a mode is the one that was selected
last, or the initial one where none was (`Machine.IsMode.run`). The lines of a program are executed
in the modes that hold behind their own codes (`Machine.IsMode.prepared_run`).
-/

namespace Toolpath

variable {α β σ : Type}

/-! ## Selections -/

/-- The effects of the codes of a block, in order. -/
def Block.effects (b : Block) : List Effect := b.codeWords.filterMap fun w => Effect.ofCode? w.code

/-- The coordinate origin that an effect selects. -/
def Effect.origin? : Effect → Option Origin
  | .origin place => some place
  | _ => Option.none

/-- The distance mode that an effect selects. -/
def Effect.distance? : Effect → Option DistanceMode
  | .distance mode => some mode
  | _ => Option.none

theorem Effect.eq_of_distance? {effect : Effect} {mode : DistanceMode}
    (h : effect.distance? = some mode) : effect = .distance mode := by
  cases effect with
  | distance selected =>
    cases h
    rfl
  | _ => cases h

/-- What the codes of a program select last, and `initial` before any. -/
def inForce (select : Effect → Option β) (initial : β) (p : Program) : β :=
  ((p.flatMap Block.effects).filterMap select).getLast?.getD initial

theorem inForce_concat (select : Effect → Option β) (initial : β) (p : Program) (b : Block) :
    inForce select initial (p ++ [b]) =
      (b.effects.filterMap select).getLast?.getD (inForce select initial p) := by
  unfold inForce
  rw [List.flatMap_append, List.filterMap_append, List.getLast?_append, List.flatMap_singleton]
  cases (b.effects.filterMap select).getLast? <;> rfl

/-- Where the codes select one mode and no other, it is in force. -/
theorem inForce_of_forall {select : Effect → Option β} {initial mode : β} {p : Program}
    (hselected : ∃ b ∈ p, ∃ effect ∈ b.effects, select effect = some mode)
    (hother : ∀ b ∈ p, ∀ effect ∈ b.effects, ∀ other, select effect = some other → other = mode) :
    inForce select initial p = mode := by
  obtain ⟨b, hb, effect, heffect, hmode⟩ := hselected
  have hmem : mode ∈ (p.flatMap Block.effects).filterMap select :=
    List.mem_filterMap.2 ⟨effect, List.mem_flatMap.2 ⟨b, hb, heffect⟩, hmode⟩
  have hne := List.ne_nil_of_mem hmem
  unfold inForce
  rw [List.getLast?_eq_some_getLast hne, Option.getD_some]
  obtain ⟨last, hlast, hselect⟩ := List.mem_filterMap.1 (List.getLast_mem hne)
  obtain ⟨own, hown, hlast⟩ := List.mem_flatMap.1 hlast
  exact hother own hown last hlast _ hselect

/-- Where the codes select no other mode, the initial one stays in force. -/
theorem inForce_eq_initial {select : Effect → Option β} {initial : β} {p : Program}
    (h : ∀ b ∈ p, ∀ effect ∈ b.effects, ∀ other, select effect = some other → other = initial) :
    inForce select initial p = initial := by
  unfold inForce
  cases hlast : ((p.flatMap Block.effects).filterMap select).getLast? with
  | none => rfl
  | some last =>
    obtain ⟨effect, heffect, hselect⟩ := List.mem_filterMap.1 (List.mem_of_getLast? hlast)
    obtain ⟨b, hb, heffect⟩ := List.mem_flatMap.1 heffect
    exact h b hb effect heffect last hselect

/-! ## Execution -/

namespace Machine

theorem applyCodes_fst (m : Machine α) (s : Strictness) (b : Block) :
    (m.applyCodes s b).1 = b.effects.foldl applyEffect m := by
  unfold applyCodes Block.effects
  dsimp only
  induction b.codeWords generalizing m with
  | nil => rfl
  | cons w rest ih =>
    rw [List.foldl_cons, ih, List.filterMap_cons]
    unfold applyCode
    cases Effect.ofCode? w.code <;> rfl

/-- A part of the machine that effects set, and nothing else does. -/
structure IsMode (read : Machine α → β) (select : Effect → Option β) : Prop where
  applyEffect : ∀ m effect, read (m.applyEffect effect) = (select effect).getD (read m)
  position : ∀ (m : Machine α) position, read { m with position } = read m
  feedRate : ∀ (m : Machine α) feedRate, read { m with feedRate } = read m

theorem isMode_origin : IsMode (α := α) Machine.origin Effect.origin? where
  applyEffect _ effect := by cases effect <;> rfl
  position _ _ := rfl
  feedRate _ _ := rfl

theorem isMode_distance : IsMode (α := α) Machine.distance Effect.distance? where
  applyEffect _ effect := by cases effect <;> rfl
  position _ _ := rfl
  feedRate _ _ := rfl

namespace IsMode

variable {read : Machine α → β} {select : Effect → Option β}

theorem foldl_applyEffect (h : IsMode read select) (m : Machine α) (effects : List Effect) :
    read (effects.foldl Machine.applyEffect m) =
      (effects.filterMap select).getLast?.getD (read m) := by
  induction effects generalizing m with
  | nil => rfl
  | cons effect rest ih =>
    rw [List.foldl_cons, ih, h.applyEffect]
    cases hselect : select effect with
    | none => rw [List.filterMap_cons_none hselect, Option.getD_none]
    | some mode =>
      rw [List.filterMap_cons_some hselect, List.getLast?_cons]
      rfl

/-- Of several codes the last one that selects the mode counts. -/
theorem applyCodes (h : IsMode read select) (m : Machine α) (s : Strictness) (b : Block) :
    read (m.applyCodes s b).1 = (b.effects.filterMap select).getLast?.getD (read m) := by
  rw [applyCodes_fst, h.foldl_applyEffect]

variable [Scalar α]

theorem prepared (h : IsMode read select) (m : Machine α) (s : Settings α) (b : Block) :
    read (m.prepared s b) = (b.effects.filterMap select).getLast?.getD (read m) := by
  unfold Machine.prepared
  rw [h.applyCodes, applyFeed_fst, h.feedRate]

/-- A motion changes no mode. -/
theorem execute (h : IsMode read select) (m : Machine α) (s : Settings α) (b : Block) :
    read (m.execute s b).machine = (b.effects.filterMap select).getLast?.getD (read m) := by
  rw [← h.prepared m s b]
  unfold Machine.execute Machine.prepared
  dsimp only
  split
  · rfl
  · rfl
  · exact h.position _ _

/-- Behind a program the mode is the one in force. -/
theorem run (h : IsMode read select) (s : Settings α) (listen : σ → Move α → σ) (before : σ)
    (p : Program) : read (Interpretation.run s listen (.start s before) p).machine =
      inForce select (read (.initial s)) p := by
  induction p using List.reverseRecOn with
  | nil => rfl
  | append_singleton p b ih =>
    rw [Interpretation.run_concat, Interpretation.machine_step, h.execute, ih, inForce_concat]

/-- A block moves the machine in the mode that is in force behind its codes. -/
theorem prepared_run (h : IsMode read select) (s : Settings α) (listen : σ → Move α → σ)
    (before : σ) (front : Program) (b : Block) :
    read ((Interpretation.run s listen (.start s before) front).machine.prepared s b) =
      inForce select (read (.initial s)) (front ++ [b]) := by
  rw [h.prepared, h.run, inForce_concat]

end IsMode

end Machine

end Toolpath
