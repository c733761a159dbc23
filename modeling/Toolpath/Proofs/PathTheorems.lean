import Toolpath.Scalar.Single
import Toolpath.Proofs.InterpretationTheorems
import Toolpath.Proofs.SettingsTheorems

/-!
# Paths

The moves of a program make one connected path, and nothing that leaves a block without a move, be
it a cancelled motion, a place too near or an arc that cannot be drawn, moves the machine.

* One block: a move starts where the machine stands, and the machine then stands at its target
  (`Machine.issued_execute`, `Machine.position_execute_of_none`).
* The feed rate is the last one that was accepted, whatever else the blocks say
  (`Machine.feedRate_execute`, `programmedFeed`).
* Two machines: where the stages of executing a block come to images of one another, so do the
  outcomes (`Machine.execute_image`) and, block by block, the paths (`Interpretation.IsImage`).
* A program: the moves touch, come from the blocks in order, are numbered, and are told to the
  listener (`Interpretation.IsConnected`, `isConnected_run`).
-/

namespace Toolpath

variable {α σ : Type} [Scalar α]

/-! ## Feed rates -/

/-- The feed rate of a block that the machine takes over. -/
def Block.acceptedFeed? (b : Block) : Option α := (b.value? 'F').filter fun x => decide (0.0 < x)

/-- The feed rate that a program leaves in force: the last one accepted, and the given one before
any. -/
def programmedFeed (initial : α) (p : Program) : α :=
  (p.filterMap Block.acceptedFeed?).getLast?.getD initial

/-- The feed rate of moves of a pace. -/
def Pace.feedRate (travel programmed : α) : Pace → α
  | .rapid => travel
  | .normal => programmed

theorem programmedFeed_append (initial : α) (p : Program) (b : Block) :
    programmedFeed initial (p ++ [b]) = b.acceptedFeed?.getD (programmedFeed initial p) := by
  unfold programmedFeed
  rw [List.filterMap_append, List.getLast?_append]
  cases h : (b.acceptedFeed? : Option α) with
  | none =>
    rw [List.filterMap_cons_none h, List.filterMap_nil]
    rfl
  | some x =>
    rw [List.filterMap_cons_some h, List.filterMap_nil]
    rfl

theorem Block.acceptedFeed_pos {b : Block} {x : α} (h : b.acceptedFeed? = some x) : 0.0 < x :=
  of_decide_eq_true (Option.filter_eq_some_iff.1 h).2

/-- Only feed rates above zero are taken over. -/
theorem programmedFeed_pos {initial : α} (hinitial : 0.0 < initial) (p : Program) :
    0.0 < programmedFeed initial p := by
  unfold programmedFeed
  rcases hlast : (p.filterMap Block.acceptedFeed?).getLast? with _ | x
  · exact hinitial
  · obtain ⟨b, -, hb⟩ := List.mem_filterMap.1 (List.mem_of_getLast? hlast)
    exact Block.acceptedFeed_pos hb

/-! ## One block -/

namespace Machine

variable {m : Machine α} {b : Block} {move : Move α}

theorem applyFeed_fst (m : Machine α) (b : Block) :
    (m.applyFeed b).1 = { m with feedRate := b.acceptedFeed?.getD m.feedRate } := by
  unfold applyFeed Block.acceptedFeed?
  rcases (b.value? 'F' : Option α) with _ | x
  · rfl
  · dsimp only
    split_ifs with hpos <;> simp [Option.filter, hpos]

omit [Scalar α] in
theorem applyCode_eq (m : Machine α) {w : Word} {effect : Effect}
    (h : Effect.ofCode? w.code = some effect) : m.applyCode w = m.applyEffect effect := by
  unfold applyCode
  rw [h]

omit [Scalar α] in
theorem applyCode_keeps (m : Machine α) (w : Word) :
    (m.applyCode w).position = m.position ∧ (m.applyCode w).feedRate = m.feedRate := by
  unfold applyCode
  split
  · exact ⟨rfl, rfl⟩
  · unfold applyEffect
    split <;> exact ⟨rfl, rfl⟩

omit [Scalar α] in
/-- Codes neither move the machine nor change its feed rate. -/
theorem applyCodes_keeps (m : Machine α) (s : Strictness) (b : Block) :
    (m.applyCodes s b).1.position = m.position ∧ (m.applyCodes s b).1.feedRate = m.feedRate := by
  unfold applyCodes
  dsimp only
  induction b.codeWords generalizing m with
  | nil => exact ⟨rfl, rfl⟩
  | cons w rest ih =>
    obtain ⟨hposition, hfeed⟩ := m.applyCode_keeps w
    obtain ⟨hposition', hfeed'⟩ := ih (m.applyCode w)
    exact ⟨hposition'.trans hposition, hfeed'.trans hfeed⟩

/-- A move that a block makes the machine do: it starts where the machine stands, at the feed rate
of its pace. -/
structure Issues (m : Machine α) (s : MachineSettings α) (b : Block) (move : Move α) : Prop where
  source_eq : move.source = m.position
  line_eq : move.line = b.line
  feedRate_eq : move.feedRate = move.pace.feedRate s.travelFeedRate m.feedRate

theorem issues_straightMove {s : MachineSettings α} {pace : Pace} {target : Vec3 α}
    (h : m.straightMove s b.line pace target = some move) : m.Issues s b move := by
  unfold straightMove at h
  split_ifs at h
  cases h
  cases pace <;> exact ⟨rfl, rfl, rfl⟩

theorem issues_motionOf {s : MachineSettings α} (h : m.motionOf s b = .ok (some move)) :
    m.Issues s b move := by
  rcases straight_or_arc h with ⟨pace, hline⟩ | ⟨clockwise, circle, -, rfl⟩
  · exact issues_straightMove hline
  · exact ⟨rfl, rfl, rfl⟩

/-- The machine after the feed rate and the codes of a block, where its motion starts. -/
def prepared (m : Machine α) (s : Settings α) (b : Block) : Machine α :=
  ((m.applyFeed b).1.applyCodes s.strictness b).1

theorem prepared_position (m : Machine α) (s : Settings α) (b : Block) :
    (m.prepared s b).position = m.position := by
  unfold prepared
  rw [(applyCodes_keeps _ s.strictness b).1, applyFeed_fst]

theorem prepared_feedRate (m : Machine α) (s : Settings α) (b : Block) :
    (m.prepared s b).feedRate = b.acceptedFeed?.getD m.feedRate := by
  unfold prepared
  rw [(applyCodes_keeps _ s.strictness b).2, applyFeed_fst]

theorem feedRate_execute (m : Machine α) (s : Settings α) (b : Block) :
    (m.execute s b).machine.feedRate = b.acceptedFeed?.getD m.feedRate := by
  rw [← m.prepared_feedRate s b]
  unfold execute
  dsimp only
  split <;> rfl

/-- A block without a move leaves the machine where it stands. -/
theorem position_execute_of_none {s : Settings α} (h : (m.execute s b).move? = none) :
    (m.execute s b).machine.position = m.position := by
  rw [← m.prepared_position s b]
  unfold execute at h ⊢
  dsimp only at h ⊢
  split
  · rfl
  · rfl
  · rename_i hmotion
    rw [hmotion] at h
    cases h

/-- A move starts where the machine stands, and the machine then stands at its target. -/
theorem issued_execute {s : Settings α} (h : (m.execute s b).move? = some move) :
    (m.prepared s b).Issues s.machine b move ∧
      (m.execute s b).machine.position = move.target :=
  ⟨issues_motionOf (move_execute.1 h), position_execute h⟩

/-! ## Images -/

section Images

variable {m' : Machine α} {b' : Block} {f : Machine α → Machine α} {g : Move α → Move α}

/-- A block asks for the image of a motion where its straight moves and its arcs are images. -/
theorem motionOf_image {s s' : MachineSettings α}
    (hempty : (b'.axisWords : AxisWords α).isEmpty = (b.axisWords : AxisWords α).isEmpty)
    (hmotion : m'.motion = m.motion)
    (hstraight : ∀ pace, m.motion = .rapid ∨ m.motion = .linear →
      m'.straightMove s' b'.line pace (m'.targetOf s' b'.axisWords) =
        (m.straightMove s b.line pace (m.targetOf s b.axisWords)).map g)
    (harc : ∀ clockwise, m'.arcMove b' (m'.targetOf s' b'.axisWords) clockwise =
      (m.arcMove b (m.targetOf s b.axisWords) clockwise).map g) :
    m'.motionOf s' b' = (m.motionOf s b).map (·.map g) := by
  have hdrawn : ∀ clockwise,
      (m'.arcMove b' (m'.targetOf s' b'.axisWords) clockwise).map some =
        ((m.arcMove b (m.targetOf s b.axisWords) clockwise).map some).map (·.map g) := by
    intro clockwise
    rw [harc]
    cases m.arcMove b (m.targetOf s b.axisWords) clockwise <;> rfl
  unfold motionOf
  dsimp only
  rw [hempty, hmotion]
  split_ifs
  · rfl
  -- one case per mode
  · cases hmode : m.motion with
    | rapid => exact congrArg Except.ok (hstraight .rapid (.inl hmode))
    | linear => exact congrArg Except.ok (hstraight .normal (.inr hmode))
    | clockwise => exact hdrawn true
    | counterClockwise => exact hdrawn false
    | cancel => rfl

/-- The outcome of a block is the image of another one where its three stages come to images. -/
theorem execute_image {s s' : Settings α}
    (hfeed : m'.applyFeed b' = (f (m.applyFeed b).1, (m.applyFeed b).2))
    (hcodes : (f (m.applyFeed b).1).applyCodes s'.strictness b' =
      (f (m.prepared s b), ((m.applyFeed b).1.applyCodes s.strictness b).2))
    (hmotion : (f (m.prepared s b)).motionOf s'.machine b' =
      ((m.prepared s b).motionOf s.machine b).map (·.map g))
    (hposition : ∀ (m : Machine α) (move : Move α),
      { f m with position := (g move).target } = f { m with position := move.target }) :
    m'.execute s' b' =
      ⟨f (m.execute s b).machine, (m.execute s b).move?.map g, (m.execute s b).problems⟩ := by
  unfold prepared at hcodes hmotion
  unfold execute
  rw [hfeed]
  dsimp only
  rw [hcodes]
  dsimp only
  rw [hmotion]
  rcases ((m.applyFeed b).1.applyCodes s.strictness b).1.motionOf s.machine b with
    problem | _ | move
  · rfl
  · rfl
  · exact congrArg (Outcome.mk · _ _) (hposition _ move)

end Images

end Machine

/-! ## Programs -/

/-- A move that the block at a place of a program asks for, at the feed rate in force there. -/
def Move.IsFrom (s : MachineSettings α) (p : Program) (move : Move α) (place : ℕ) : Prop :=
  ∃ b, p[place]? = some b ∧ move.line = b.line ∧
    move.feedRate = move.pace.feedRate s.travelFeedRate
      (programmedFeed s.defaultFeedRate (p.take (place + 1)))

theorem Move.IsFrom.lt {s : MachineSettings α} {p : Program} {move : Move α} {place : ℕ}
    (h : move.IsFrom s p place) : place < p.length := by
  obtain ⟨_, hplace, -⟩ := h
  exact (List.getElem?_eq_some_iff.1 hplace).1

theorem Move.IsFrom.append {s : MachineSettings α} {p : Program} {move : Move α} {place : ℕ}
    (h : move.IsFrom s p place) (b : Block) : move.IsFrom s (p ++ [b]) place := by
  have hlt := h.lt
  obtain ⟨own, hplace, hline, hfeed⟩ := h
  refine ⟨own, ?_, hline, ?_⟩
  · rwa [List.getElem?_append_left hlt]
  · rwa [List.take_append_of_le_length hlt]

/-- The moves of a program make one path: it starts at the initial position, every move starts
where the one before it ends, and the machine stands at the end of the last one. The moves come
from blocks in the order of the program, and the listener has heard of each of them in order. -/
structure Interpretation.IsConnected (s : Settings α) (listen : σ → Move α → σ) (before : σ)
    (p : Program) (i : Interpretation α σ) : Prop where
  index_eq : ∀ (k : ℕ) (_ : k < i.path.size), i.path[k].index = k
  source_first : ∀ first, i.path.toList.head? = some first →
    first.source = s.machine.initialPosition
  source_next : i.path.toList.IsChain fun move next => next.source = move.target
  position_eq : i.machine.position =
    (i.path.toList.getLast?.map (·.target)).getD s.machine.initialPosition
  heard_eq : i.heard = i.path.toList.foldl listen before
  /-- The places of the blocks that the moves come from. -/
  places : ∃ places : List ℕ, places.Pairwise (· < ·) ∧
    List.Forall₂ (Move.IsFrom s.machine p) i.path.toList places

namespace Interpretation

variable {s : Settings α} {listen : σ → Move α → σ} {before : σ} {p : Program}
  {i : Interpretation α σ} {b : Block} {move : Move α}

theorem step_of_none (h : (i.machine.execute s b).move? = none) :
    step s listen i b =
      { i with
        machine := (i.machine.execute s b).machine
        problems := i.problems ++ (i.machine.execute s b).problems } := by
  unfold step
  dsimp only
  rw [h]

theorem step_of_some (h : (i.machine.execute s b).move? = some move) :
    step s listen i b =
      ⟨(i.machine.execute s b).machine, i.path.push { move with index := i.path.size },
        i.problems ++ (i.machine.execute s b).problems,
        listen i.heard { move with index := i.path.size }⟩ := by
  unfold step
  dsimp only
  rw [h]

/-- The path of a single block. -/
theorem path_singleton (h : ((Machine.initial s).execute s b).move? = some move) :
    (run s listen (start s before) [b]).path = #[{ move with index := 0 }] := by
  show (step s listen (start s before) b).path = _
  rw [step_of_some h]
  rfl

theorem machine_step : (step s listen i b).machine = (i.machine.execute s b).machine := by
  cases h : (i.machine.execute s b).move? with
  | none => rw [step_of_none h]
  | some move => rw [step_of_some h]

/-- Whether an interpretation has come where another has, seen through maps of the machine and of
the moves. -/
structure IsImage {σ' : Type} (f : Machine α → Machine α) (g : Move α → Move α)
    (i : Interpretation α σ) (i' : Interpretation α σ') : Prop where
  machine_eq : i'.machine = f i.machine
  path_eq : i'.path = i.path.map g
  problems_eq : i'.problems = i.problems

/-- A block whose outcome is the image of the other outcome keeps the images. -/
theorem IsImage.step {σ' : Type} {f : Machine α → Machine α} {g : Move α → Move α}
    {i' : Interpretation α σ'} (h : IsImage f g i i') {s' : Settings α} {b' : Block}
    {listen : σ → Move α → σ} {listen' : σ' → Move α → σ'}
    (hindex : ∀ (move : Move α) (n : ℕ), g { move with index := n } = { g move with index := n })
    (hexecute : i'.machine.execute s' b' =
      ⟨f (i.machine.execute s b).machine, (i.machine.execute s b).move?.map g,
        (i.machine.execute s b).problems⟩) :
    IsImage f g (Interpretation.step s listen i b) (Interpretation.step s' listen' i' b') := by
  have hsize : i'.path.size = i.path.size := by rw [h.path_eq, Array.size_map]
  cases hmove : (i.machine.execute s b).move? with
  | none =>
    have hmove' : (i'.machine.execute s' b').move? = none := by
      rw [hexecute, hmove]
      rfl
    rw [step_of_none hmove, step_of_none hmove', hexecute, h.problems_eq]
    exact ⟨rfl, h.path_eq, rfl⟩
  | some move =>
    have hmove' : (i'.machine.execute s' b').move? = some (g move) := by
      rw [hexecute, hmove]
      rfl
    rw [step_of_some hmove, step_of_some hmove', hexecute, h.problems_eq, hsize]
    refine ⟨rfl, ?_, rfl⟩
    rw [Array.map_push, h.path_eq]
    exact congrArg (i.path.map g).push (hindex move i.path.size).symm

namespace IsConnected

theorem start (s : Settings α) (listen : σ → Move α → σ) (before : σ) :
    (Interpretation.start s before).IsConnected s listen before [] where
  index_eq _ hk := absurd hk (Nat.not_lt_zero _)
  source_first _ h := by cases h
  source_next := .nil
  position_eq := rfl
  heard_eq := rfl
  places := ⟨[], .nil, .nil⟩

/-- A move starts where the path ends. -/
theorem source_eq (h : i.IsConnected s listen before p)
    (hmove : (i.machine.execute s b).move? = some move) :
    move.source = (i.path.toList.getLast?.map (·.target)).getD s.machine.initialPosition := by
  obtain ⟨hissued, -⟩ := Machine.issued_execute hmove
  rw [hissued.source_eq, Machine.prepared_position, h.position_eq]

/-- A move comes from the block that has just been executed. -/
theorem isFrom (hfeed : i.machine.feedRate = programmedFeed s.machine.defaultFeedRate p)
    (hmove : (i.machine.execute s b).move? = some move) :
    Move.IsFrom s.machine (p ++ [b]) move p.length := by
  obtain ⟨hissued, -⟩ := Machine.issued_execute hmove
  refine ⟨b, List.getElem?_concat_length, hissued.line_eq, ?_⟩
  have hall : (p ++ [b]).take (p.length + 1) = p ++ [b] := List.take_of_length_le (by simp)
  rw [hissued.feedRate_eq, Machine.prepared_feedRate, hfeed, hall, programmedFeed_append]

theorem step (h : i.IsConnected s listen before p)
    (hfeed : i.machine.feedRate = programmedFeed s.machine.defaultFeedRate p) (b : Block) :
    (Interpretation.step s listen i b).IsConnected s listen before (p ++ [b]) := by
  have hheard : i.Heard listen before := ⟨h.heard_eq, h.index_eq⟩
  obtain ⟨hheard', hindex'⟩ := hheard.step s b
  obtain ⟨places, hincreasing, hplaces⟩ := h.places
  have hfrom : List.Forall₂ (Move.IsFrom s.machine (p ++ [b])) i.path.toList places :=
    hplaces.imp fun _ _ hmove => hmove.append b
  cases hmove : (i.machine.execute s b).move? with
  | none =>
    -- whatever kept the block from moving the machine has kept its position too
    rw [step_of_none hmove] at hheard' hindex' ⊢
    exact ⟨hindex', h.source_first, h.source_next,
      (Machine.position_execute_of_none hmove).trans h.position_eq, hheard', places, hincreasing,
      hfrom⟩
  | some move =>
    have hsource := h.source_eq hmove
    rw [step_of_some hmove] at hheard' hindex' ⊢
    constructor
    case index_eq => exact hindex'
    case heard_eq => exact hheard'
    case source_first =>
      -- the new move is the first one only where there was none
      intro first hfirst
      rw [Array.toList_push, List.head?_append] at hfirst
      rcases hhead : i.path.toList.head? with _ | old
      · rw [hhead] at hfirst
        cases hfirst
        rwa [List.head?_eq_none_iff.1 hhead] at hsource
      · rw [hhead] at hfirst
        cases hfirst
        exact h.source_first first hhead
    case source_next =>
      rw [Array.toList_push, List.isChain_append]
      refine ⟨h.source_next, .singleton _, ?_⟩
      intro last hlast next hnext
      cases hnext
      rwa [hlast] at hsource
    case position_eq =>
      rw [Array.toList_push, List.getLast?_concat]
      exact (Machine.issued_execute hmove).2
    case places =>
      refine ⟨places ++ [p.length], ?_, ?_⟩
      · refine List.pairwise_append.2 ⟨hincreasing, List.pairwise_singleton _ _, ?_⟩
        intro place hplace last hlast
        obtain ⟨k, hk, rfl⟩ := List.mem_iff_getElem.1 hplace
        have hlength := hplaces.length_eq
        rw [List.mem_singleton.1 hlast]
        exact (hplaces.get (by omega) hk).lt
      · have hown := isFrom hfeed hmove
        rw [Array.toList_push]
        exact List.rel_append hfrom (.cons hown .nil)

end IsConnected

/-- The feed rate in force is the programmed one, and the path is connected. -/
theorem isConnected_run (s : Settings α) (listen : σ → Move α → σ) (before : σ) (p : Program) :
    (run s listen (start s before) p).machine.feedRate =
        programmedFeed s.machine.defaultFeedRate p ∧
      (run s listen (start s before) p).IsConnected s listen before p := by
  -- from the end of the program, because the feed rate in force is that of all blocks so far
  induction p using List.reverseRecOn with
  | nil => exact ⟨rfl, .start s listen before⟩
  | append_singleton p b ih =>
    obtain ⟨hfeed, hconnected⟩ := ih
    rw [run_concat]
    refine ⟨?_, hconnected.step hfeed b⟩
    rw [machine_step, Machine.feedRate_execute, hfeed, programmedFeed_append]

end Interpretation

/-- Under accepted settings every feed rate is above zero. -/
theorem Interpretation.IsConnected.feedRate_pos {s : Settings α} {listen : σ → Move α → σ}
    {before : σ} {p : Program} {i : Interpretation α σ} (h : i.IsConnected s listen before p)
    (hvalid : s.IsValid) : ∀ move ∈ i.path, 0.0 < move.feedRate := by
  intro move hmove
  obtain ⟨places, -, hplaces⟩ := h.places
  obtain ⟨k, hk, rfl⟩ := List.mem_iff_getElem.1 (Array.mem_toList_iff.2 hmove)
  have hlength := hplaces.length_eq
  obtain ⟨_, -, -, hfeed⟩ := hplaces.get hk (by omega)
  rw [List.get_eq_getElem] at hfeed
  rw [hfeed]
  cases i.path.toList[k].pace with
  | rapid => exact hvalid.travelFeedRate.2
  | normal => exact programmedFeed_pos hvalid.defaultFeedRate.2 _

/-- Whatever settings, program and listener: the moves make one path in the order of the program,
and under accepted settings every feed rate is above zero. -/
theorem isConnected_path (s : Settings α) (listen : σ → Move α → σ) (before : σ) (p : Program) :
    (Interpretation.run s listen (.start s before) p).IsConnected s listen before p ∧
      (s.validate = .ok () →
        ∀ move ∈ (Interpretation.run s listen (.start s before) p).path, 0.0 < move.feedRate) := by
  obtain ⟨-, hconnected⟩ := Interpretation.isConnected_run s listen before p
  exact ⟨hconnected, fun h => hconnected.feedRate_pos (Settings.validate_eq_ok.1 h)⟩

/-- Travel, a feed rate that is rejected, an arc without a centre, a move that is too short and a
move at the last feed rate accepted. -/
def mixedBlocks : Program :=
  [.ofPairs 1 [('X', 1.0)], .ofPairs 2 [('G', 1.0), ('F', 600.0), ('X', 2.0)],
    .ofPairs 3 [('F', -1.0), ('Y', 0.000001)], .ofPairs 4 [('G', 2.0), ('X', 3.0)],
    .ofPairs 5 [('G', 1.0), ('Y', 1.0)]]

/-- Three of the five blocks move the machine. -/
theorem isConnected_path_mixed :
    (Settings.default : Settings Float32).validate = .ok () ∧
      (Interpretation.run (Settings.default : Settings Float32) Array.push (.start .default #[])
        mixedBlocks).path.map (fun m => (m.line, m.feedRate)) =
          #[(1, 900.0), (2, 600.0), (5, 600.0)] ∧
      ∀ move ∈ (Interpretation.run (Settings.default : Settings Float32) Array.push
        (.start .default #[]) mixedBlocks).path, 0.0 < move.feedRate := by
  have hvalid : (Settings.default : Settings Float32).validate = .ok () := by decide +kernel
  refine ⟨hvalid, by decide +kernel, ?_⟩
  exact (isConnected_path Settings.default Array.push #[] mixedBlocks).2 hvalid

end Toolpath
