import Toolpath.Passage
import Toolpath.Track

/-!
# Sampling of planned chains

The sampler walks over the planned chains with a clock. Every move is sampled at equal steps of
its length, at the times its profile gives; the clock then advances by the planned duration of the
move. After a chain a few samples at rest mark the stop.
-/

namespace Toolpath

/-- The state of sampling. -/
structure Sampler (α : Type) where
  clock : α
  /-- The box around all samples. -/
  box : Box α
  sampleCount : Nat
  track : Track α

namespace Sampler

variable {α : Type} [Scalar α]

/-- Sampling onto a track, from time zero. -/
def start (track : Track α) : Sampler α := ⟨0.0, .empty, 0, track⟩

/-- Add a sample; the second value is its place among the vertices. -/
def push (s : Sampler α) (sample : Sample α) (pace : Pace) : Sampler α × Nat :=
  let (track, vertex) := s.track.add sample pace
  ({ s with box := s.box.add sample.point, sampleCount := s.sampleCount + 1, track }, vertex)

/-- Sample one step of a move that began at `startTime`. -/
def pushStep (m : Move α) (startTime : α) (steps step : Nat) (s : Sampler α) :
    Except BoundsFault (Sampler α × Nat) := do
  let ratio : α := Move.stepRatio step steps
  let passage ← m.passageAt ratio
  return s.push ⟨m.pointAt ratio, startTime + passage.time⟩ m.pace

/-- Sample a planned move; the first move of all also gives its start point. -/
def sampleMove (s : Sampler α) (m : Move α) : Except BoundsFault (Sampler α) := do
  let s := if s.track.isEmpty then (s.push ⟨m.source, s.clock⟩ m.pace).1 else s
  let startTime := s.clock
  let firstVertex := s.track.vertexCount - 1
  let steps := m.stepCount s.track.settings
  let (s, lastVertex) ← (List.range steps).foldlM
    (fun (s, _) j => pushStep m startTime steps (j + 1) s) (s, firstVertex)
  let endTime := startTime + m.profile.duration
  let track := s.track.mark m.index firstVertex (lastVertex + 1) startTime endTime
  return { s with clock := endTime, track }

/-- Add the samples that mark a stop. -/
def dwell (s : Sampler α) (point : Vec3 α) (pace : Pace) : Sampler α :=
  (List.range s.track.settings.dwellSamples).foldl
    (fun s _ =>
      let clock := s.clock + s.track.settings.dwellInterval
      (({ s with clock }).push ⟨point, clock⟩ pace).1) s

/-- Sample a planned chain and the stop behind it. -/
def sampleChain (s : Sampler α) (c : Chain α) : Except BoundsFault (Sampler α) := do
  let s ← c.moves.foldlM sampleMove s
  match c.moves.getLast? with
  | none => return s
  | some last => return s.dwell last.target last.pace

/-- Close the last run. -/
def finish (s : Sampler α) : Sampler α := { s with track := s.track.close }

end Sampler

end Toolpath
