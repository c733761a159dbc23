import Toolpath.Planning

/-!
# Passages along a move

The profile of a move is read back by distance: the phase that holds a distance gives the speed
there, and the time since the move began.
-/

namespace Toolpath

variable {α : Type} [Scalar α]

/-- The speed, and the time since the move began, when a point is passed. -/
structure Passage (α : Type) where
  speed : α
  time : α

/-- The first phase that reaches a distance, or the last, with the time before it. -/
def phaseAt? (x : α) : α → List (Phase α) → Option (α × Phase α)
  | _, [] => none
  | elapsed, [p] => some (elapsed, p)
  | elapsed, p :: rest =>
    if x ≤ p.stop then some (elapsed, p) else phaseAt? x (elapsed + p.duration) rest

/-- The passage at a share of a phase, timed from the start of the phase. -/
def Phase.passage (p : Phase α) (m : Move α) (share : α) : Passage α :=
  let x := p.length * share
  match p.kind with
  | .accel =>
    let twice := Scalar.greatest (2.0 * (m.profile.entryRamp + x)) 0.0
    { speed := Scalar.sqrt (m.maxAccel * twice)
      time := Scalar.sqrt (twice / m.maxAccel) - Scalar.sqrt p.fromSq / m.maxAccel }
  | .decel =>
    let twice := Scalar.greatest (2.0 * (m.profile.exitRamp + p.length - x)) 0.0
    { speed := Scalar.sqrt (m.maxAccel * twice)
      time := Scalar.sqrt p.toSq / m.maxAccel + p.duration - Scalar.sqrt (twice / m.maxAccel) }
  | .const => { speed := Scalar.sqrt p.topSq, time := p.duration * share }

/-- The share of a phase that is done at a distance along the move; all of an empty phase. -/
def Phase.shareAt (p : Phase α) (x : α) : α :=
  if 0.0 < p.length then Scalar.clamp ((x - p.start) / p.length) 0.0 1.0 else 1.0

/-- The passage at a ratio of the way; a move without phases is passed at rest in no time. -/
def Move.passageAt (m : Move α) (ratio : α) : Except BoundsFault (Passage α) :=
  let x := m.length * ratio
  match phaseAt? x 0.0 m.profile.phases with
  | none => .ok ⟨0.0, 0.0⟩
  | some (elapsed, p) => do
    let passage := p.passage m (p.shareAt x)
    let time ← clampBetween passage.time 0.0 p.duration
    return { passage with time := elapsed + time }

end Toolpath
