import Mathlib.Data.List.Induction
import Toolpath.Simulation
import Toolpath.Proofs.TrackTheorems

/-!
# What interpretation collects

Whatever a program says, the path it makes is numbered from zero, and the listener has heard of
exactly the moves of the path, in order (`Interpretation.Heard`). For the listener of the
simulation this means that the track has one span for each move (`heard_interpret`) and is ready
for the samples: it is linked and holds none yet.

A block makes the machine do a straight move or an arc (`Machine.straight_or_arc`), and every move
of the path is one that a block asks for behind the blocks in front of it
(`Interpretation.exists_issue`).
-/

namespace Toolpath

variable {α σ : Type} [Scalar α]

/-! ## The move of a block -/

namespace Machine

variable {m : Machine α} {b : Block} {move : Move α}

/-- The move of a block is that of its motion, after its feed rate and its codes. -/
theorem move_execute {s : Settings α} : (m.execute s b).move? = some move ↔
    ((m.applyFeed b).1.applyCodes s.strictness b).1.motionOf s.machine b = .ok (some move) := by
  unfold execute
  dsimp only
  cases ((m.applyFeed b).1.applyCodes s.strictness b).1.motionOf s.machine b with
  | error problem => simp
  | ok move? => cases move? <;> simp

/-- After a move the machine stands at its target. -/
theorem position_execute {s : Settings α} (h : (m.execute s b).move? = some move) :
    (m.execute s b).machine.position = move.target := by
  rw [move_execute] at h
  unfold execute
  dsimp only
  rw [h]

/-- A motion is a straight move to the target of the block, or an arc to it on the circle that the
block describes. -/
theorem straight_or_arc {s : MachineSettings α} (h : m.motionOf s b = .ok (some move)) :
    (∃ pace, m.straightMove s b.line pace (m.targetOf s b.axisWords) = some move) ∨
      ∃ clockwise circle, m.circle b (m.targetOf s b.axisWords) clockwise = .ok circle ∧
        move = .make (.arc (m.arcOf circle (m.targetOf s b.axisWords) clockwise)) m.position
          (m.targetOf s b.axisWords) m.feedRate b.line .normal := by
  have harc : ∀ clockwise,
      (m.arcMove b (m.targetOf s b.axisWords) clockwise).map some = .ok (some move) →
      ∃ circle, m.circle b (m.targetOf s b.axisWords) clockwise = .ok circle ∧
        move = .make (.arc (m.arcOf circle (m.targetOf s b.axisWords) clockwise)) m.position
          (m.targetOf s b.axisWords) m.feedRate b.line .normal := by
    intro clockwise hmove
    unfold arcMove at hmove
    rcases hcircle : m.circle b (m.targetOf s b.axisWords) clockwise with problem | circle
    · rw [hcircle] at hmove
      cases hmove
    · rw [hcircle] at hmove
      cases hmove
      exact ⟨circle, rfl, rfl⟩
  unfold motionOf at h
  dsimp only at h
  split_ifs at h
  · cases h
  · split at h
    · exact .inl ⟨_, Except.ok.inj h⟩
    · exact .inl ⟨_, Except.ok.inj h⟩
    · exact .inr ⟨_, harc true h⟩
    · exact .inr ⟨_, harc false h⟩
    · cases h

end Machine

/-! ## The path and the listener -/

/-- The moves of the path are numbered in order, and the listener has heard of each of them. -/
structure Interpretation.Heard (listen : σ → Move α → σ) (before : σ)
    (i : Interpretation α σ) : Prop where
  heard_eq : i.heard = i.path.toList.foldl listen before
  index_eq : ∀ (k : Nat) (_ : k < i.path.size), i.path[k].index = k

namespace Interpretation.Heard

variable {listen : σ → Move α → σ} {before : σ} {i : Interpretation α σ}

omit [Scalar α] in
theorem start (s : Settings α) (listen : σ → Move α → σ) (before : σ) :
    (Interpretation.start s before).Heard listen before where
  heard_eq := rfl
  index_eq _ hk := absurd hk (Nat.not_lt_zero _)

theorem step (h : i.Heard listen before) (s : Settings α) (b : Block) :
    (Interpretation.step s listen i b).Heard listen before := by
  unfold Interpretation.step
  dsimp only
  cases (i.machine.execute s b).move? with
  | none => exact ⟨h.heard_eq, h.index_eq⟩
  | some move =>
    constructor
    case heard_eq =>
      show listen i.heard _ = (i.path.push _).toList.foldl listen before
      rw [Array.toList_push, List.foldl_append, ← h.heard_eq]
      rfl
    case index_eq =>
      intro k hk
      rw [Array.size_push] at hk
      by_cases hlast : k = i.path.size
      · subst hlast
        simp
      · have hk' : k < i.path.size := by omega
        rw [Array.getElem_push_lt hk']
        exact h.index_eq k hk'

theorem run (h : i.Heard listen before) (s : Settings α) (p : Program) :
    (Interpretation.run s listen i p).Heard listen before := by
  unfold Interpretation.run
  induction p generalizing i with
  | nil => exact h
  | cons b rest ih => exact ih (h.step s b)

end Interpretation.Heard

/-! ## Where moves come from -/

/-- What a move is drawn from: its shape and its ends. -/
def Move.course (m : Move α) : Shape α × Vec3 α × Vec3 α := (m.shape, m.source, m.target)

/-- A move of a program takes the course of one that a block asks for behind the blocks in front of
it. -/
def Move.IsIssued (s : Settings α) (p : Program) (b : Block) (m : Move α) : Prop :=
  ∃ front back drawn, p = front ++ b :: back ∧
    ((interpret s front).machine.execute s b).move? = some drawn ∧ m.course = drawn.course

/-- A program with one more block behind it. -/
theorem Interpretation.run_concat (s : Settings α) (listen : σ → Move α → σ)
    (i : Interpretation α σ) (p : Program) (b : Block) :
    run s listen i (p ++ [b]) = step s listen (run s listen i p) b := List.foldl_append

/-- Every move of the path is one that a block of the program asks for, but for its number. -/
theorem Interpretation.exists_issue (s : Settings α) (listen : σ → Move α → σ) (before : σ)
    (p : Program) : ∀ move ∈ (run s listen (.start s before) p).path, ∃ front b back drawn,
      p = front ++ b :: back ∧
      ((run s listen (.start s before) front).machine.execute s b).move? = some drawn ∧
      move = { drawn with index := move.index } := by
  -- from the end of the program, because a block finds the machine as those in front leave it
  induction p using List.reverseRecOn with
  | nil => exact fun move hmove => absurd hmove (Array.not_mem_empty move)
  | append_singleton p b ih =>
    have hearlier : ∀ move ∈ (run s listen (.start s before) p).path, ∃ front own back drawn,
        p ++ [b] = front ++ own :: back ∧
        ((run s listen (.start s before) front).machine.execute s own).move? = some drawn ∧
        move = { drawn with index := move.index } := by
      intro move hmove
      obtain ⟨front, own, back, drawn, hp, hdrawn, hsame⟩ := ih move hmove
      exact ⟨front, own, back ++ [b], drawn, by rw [hp]; simp, hdrawn, hsame⟩
    intro move hmove
    rw [run_concat] at hmove
    unfold step at hmove
    dsimp only at hmove
    cases hissued : ((run s listen (.start s before) p).machine.execute s b).move? with
    | none =>
      rw [hissued] at hmove
      exact hearlier move hmove
    | some drawn =>
      rw [hissued] at hmove
      rcases Array.mem_push.1 hmove with hmove | rfl
      · exact hearlier move hmove
      · exact ⟨p, b, [], drawn, rfl, hissued, rfl⟩

/-- Every move of the path takes the course that a block of the program asks for. -/
theorem isIssued_interpret (s : Settings α) (p : Program) :
    ∀ m ∈ (interpret s p).path, ∃ b, m.IsIssued s p b := by
  intro m hm
  obtain ⟨front, b, back, drawn, hp, hdrawn, hsame⟩ :=
    Interpretation.exists_issue s Track.enter (.empty s.sampling) p m hm
  refine ⟨b, front, back, drawn, hp, hdrawn, ?_⟩
  rw [hsame]
  rfl

/-! ## The track as a listener -/

/-- The span that a track opens for a move. -/
def Track.spanOf (settings : SamplingSettings α) (m : Move α) : Span α :=
  ⟨m.line, m.index, m.polyline (if m.isArc then m.stepCount settings else 1), 0, 0, 0.0, 0.0⟩

theorem Track.foldl_enter (t : Track α) (moves : List (Move α)) :
    moves.foldl Track.enter t =
      { t with spans := t.spans ++ (moves.map (Track.spanOf t.settings)).toArray } := by
  induction moves generalizing t with
  | nil => simp
  | cons m rest ih =>
    rw [List.foldl_cons, ih]
    have hsettings : (t.enter m).settings = t.settings := rfl
    have hspans : (t.enter m).spans = t.spans.push (Track.spanOf t.settings m) := rfl
    have happend : t.spans.push (Track.spanOf t.settings m) ++
        (rest.map (Track.spanOf t.settings)).toArray =
        t.spans ++ ((m :: rest).map (Track.spanOf t.settings)).toArray := by
      simp
    rw [hsettings, hspans, happend]
    rfl

/-- The simulation hears of every move of the path by one span of an otherwise empty track. -/
theorem heard_interpret (s : Settings α) (p : Program) :
    (interpret s p).heard =
      { Track.empty s.sampling with
        spans := ((interpret s p).path.toList.map (Track.spanOf s.sampling)).toArray } := by
  have hheard : (interpret s p).Heard Track.enter (.empty s.sampling) :=
    (Interpretation.Heard.start s Track.enter (.empty s.sampling)).run s p
  rw [hheard.heard_eq, Track.foldl_enter]
  simp [Track.empty]

theorem index_interpret (s : Settings α) (p : Program) {k : Nat}
    (hk : k < (interpret s p).path.size) : (interpret s p).path[k].index = k := by
  have hheard : (interpret s p).Heard Track.enter (.empty s.sampling) :=
    (Interpretation.Heard.start s Track.enter (.empty s.sampling)).run s p
  exact hheard.index_eq k hk

theorem spans_interpret (s : Settings α) (p : Program) :
    (interpret s p).heard.spans =
      ((interpret s p).path.toList.map (Track.spanOf s.sampling)).toArray := by
  rw [heard_interpret]

theorem size_spans_interpret (s : Settings α) (p : Program) :
    (interpret s p).heard.spans.size = (interpret s p).path.size := by
  rw [spans_interpret, List.size_toArray, List.length_map, Array.length_toList]

/-- The spans are numbered as the moves are. -/
theorem index_spans_interpret (s : Settings α) (p : Program) {i : Nat}
    (hi : i < (interpret s p).heard.spans.size) : (interpret s p).heard.spans[i].index = i := by
  have hi' : i < (interpret s p).path.size := by rwa [size_spans_interpret] at hi
  simp only [spans_interpret, List.getElem_toArray, List.getElem_map, Array.getElem_toList]
  exact index_interpret s p hi'

/-- The track is linked, and no sample has been added to it. -/
theorem linked_interpret (s : Settings α) (p : Program) :
    (interpret s p).heard.Linked ∧ (interpret s p).heard.samples = [] := by
  have hempty := Track.linked_empty s.sampling
  rw [heard_interpret]
  exact ⟨⟨hempty.seed_eq, hempty.samples_ne, hempty.closedCount_eq⟩,
    Track.samples_of_fresh_empty rfl⟩

end Toolpath
