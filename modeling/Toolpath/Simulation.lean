import Toolpath.Interpretation
import Toolpath.Sampler
import Toolpath.VertexBuffer

/-!
# Simulation

A simulation interprets a program, splits the path into chains, plans each chain and samples it.
The track is entered by every move while the program is interpreted and filled while the chains
are sampled.
-/

namespace Toolpath

/-- All that a simulation comes to. -/
structure Simulation (α : Type) where
  /-- The planned chains. -/
  chains : List (Chain α)
  track : Track α
  /-- Seconds, with the stops. -/
  totalTime : α
  /-- The box around all samples. -/
  box : Box α
  sampleCount : Nat
  problems : List (Problem α)

/-- The counts and measures of a simulation. -/
structure Summary (α : Type) where
  moves : Nat
  chains : Nat
  vertices : Nat
  runs : Nat
  totalTime : α
  pathLength : α
  /-- The highest feed rate of a move that is not rapid. -/
  maxFeedRate : α
  problems : Nat
  droppedMotions : Nat
  box : Box α

variable {α : Type} [Scalar α]

/-- Interpret a program onto an empty track. -/
def interpret (s : Settings α) (p : Program) : Interpretation α (Track α) :=
  (Interpretation.start s (.empty s.sampling)).run s Track.enter p

/-- Plan and sample chains in order. -/
def planAndSample (sampler : Sampler α) :
    List (Chain α) → Except BoundsFault (List (Chain α) × Sampler α)
  | [] => .ok ([], sampler)
  | c :: rest => do
    let planned ← c.plan
    let sampler ← sampler.sampleChain planned
    let (rest, sampler) ← planAndSample sampler rest
    return (planned :: rest, sampler)

/-- Simulate a program. -/
def simulate (s : Settings α) (p : Program) : Except BoundsFault (Simulation α) := do
  let i := interpret s p
  let chains := Chain.ofPath i.path.toList s.machine.maxAcceleration
  let (chains, sampler) ← planAndSample (.start i.heard) chains
  let sampler := sampler.finish
  return {
    chains
    track := sampler.track
    totalTime := sampler.clock
    box := sampler.box
    sampleCount := sampler.sampleCount
    problems := i.problems.toList }

namespace Simulation

/-- The planned moves in order. -/
def moves {α : Type} (s : Simulation α) : List (Move α) := s.chains.flatMap (·.moves)

/-- The highest feed rate of the moves that are not rapid, at least zero. -/
def maxFeedRate (s : Simulation α) : α :=
  ((s.moves.filter (·.pace = .normal)).map (·.feedRate)).foldl Scalar.greatest 0.0

/-- The counts and measures of the simulation. -/
def summary (s : Simulation α) : Summary α :=
  { moves := s.moves.length
    chains := s.chains.length
    vertices := s.track.vertexCount
    runs := s.track.runs.size
    totalTime := s.totalTime
    pathLength := Scalar.sum (s.chains.map Chain.length)
    maxFeedRate := s.maxFeedRate
    problems := s.problems.length
    droppedMotions := droppedMotions s.problems
    box := s.box }

end Simulation

end Toolpath
