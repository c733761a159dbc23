import Toolpath.Settings

/-!
# Moves

A move is one straight or circular stretch of the toolpath. It is parametrised by the ratio of the
way that is done; an arc may rise along the normal of its plane while it turns. Planning gives a
move the profile of its speed, a list of phases over its length. All speeds are kept squared.
-/

namespace Toolpath

/-- Whether a move is travel or runs at the programmed feed. -/
inductive Pace where
  | rapid
  | normal
  deriving DecidableEq

/-- How the speed changes in a phase. -/
inductive PhaseKind where
  | accel
  | const
  | decel
  deriving DecidableEq

/-- One phase of a speed profile, between two distances along the move. -/
structure Phase (α : Type) where
  kind : PhaseKind
  start : α
  stop : α
  /-- Squared speed at the start. -/
  fromSq : α
  /-- Squared speed at the stop. -/
  toSq : α
  /-- Greatest squared speed of the move. -/
  topSq : α
  /-- Seconds. -/
  duration : α
  deriving DecidableEq

/-- The length of a phase. -/
def Phase.length {α : Type} [Arithmetic α] (p : Phase α) : α := p.stop - p.start

/-- The speed along a move. -/
structure Profile (α : Type) where
  /-- Seconds. -/
  duration : α
  /-- The distance in which the entry speed would be reached from rest. -/
  entryRamp : α
  /-- The distance in which the exit speed would be stopped. -/
  exitRamp : α
  phases : List (Phase α)
  deriving DecidableEq

/-- The profile of a move without motion. -/
def Profile.rest {α : Type} [Arithmetic α] : Profile α := ⟨0.0, 0.0, 0.0, []⟩

/-- An arc in plane coordinates. -/
structure Arc (α : Type) where
  plane : Plane
  center : Vec2 α
  /-- Angle of the start point. -/
  fromAngle : α
  /-- Signed turn, negative when clockwise. -/
  sweep : α
  radius : α
  deriving DecidableEq

/-- The course of a move between its ends. -/
inductive Shape (α : Type) where
  | line
  | arc (arc : Arc α)
  deriving DecidableEq

/-- One straight or circular move. -/
structure Move (α : Type) where
  /-- The place among the moves of the program. -/
  index : Nat
  shape : Shape α
  source : Vec3 α
  target : Vec3 α
  /-- Programmed feed rate, per minute. -/
  feedRate : α
  line : Nat
  pace : Pace
  length : α
  /-- Greatest squared speed: a limit at first, the planned peak after planning. -/
  peakSq : α
  /-- Acceleration left for changes of speed. -/
  maxAccel : α
  profile : Profile α
  deriving DecidableEq

/-- The number of equal chords that keep within `tolerance` of an arc, at least one and at most
the greatest count. -/
def chordCount {ω : Type} [WideScalar ω] (radius sweep tolerance : ω) (maxSteps : Nat) : Nat :=
  let cap := max maxSteps 1
  let ratio := tolerance / radius
  if ratio < 2.0 then
    let perHalfTurn := WideScalar.pi / WideScalar.arccos (1.0 - ratio)
    match WideScalar.ceilCount? (perHalfTurn * Arithmetic.abs sweep / (2.0 * WideScalar.pi)) with
    | none => cap
    | some n => if cap ≤ n then cap else max n 1
  else 1

namespace Move

variable {α : Type} [Scalar α]

/-! ## Geometry -/

/-- The rise of a move along the normal of a plane. -/
def rise (m : Move α) (plane : Plane) : α := plane.height m.target - plane.height m.source

/-- The length of the course. -/
def courseLength (m : Move α) : α :=
  match m.shape with
  | .line => m.source.distance m.target
  | .arc arc => Scalar.hypot (arc.radius * Arithmetic.abs arc.sweep) (m.rise arc.plane)

/-- A move that is not planned yet. -/
def make (shape : Shape α) (source target : Vec3 α) (feedRate : α) (line : Nat) (pace : Pace) :
    Move α :=
  let m : Move α :=
    { index := 0, shape, source, target, feedRate, line, pace
      length := 0.0, peakSq := 0.0, maxAccel := 0.0, profile := .rest }
  { m with length := m.courseLength }

/-- The direction of an arc where its radius has the given angle. -/
def arcDirection (m : Move α) (arc : Arc α) (angle : α) : Vec3 α :=
  let sign : α := if arc.sweep < 0.0 then -1.0 else 1.0
  let planar := arc.radius * Arithmetic.abs arc.sweep
  let slope := if 0.0 < planar then m.rise arc.plane / planar else 0.0
  (arc.plane.compose ⟨-sign * Scalar.sin angle, sign * Scalar.cos angle⟩ slope).direction

/-- The direction in which a move starts. -/
def entryDirection (m : Move α) : Vec3 α :=
  match m.shape with
  | .line => (m.target - m.source).direction
  | .arc arc => m.arcDirection arc arc.fromAngle

/-- The direction in which a move ends. -/
def exitDirection (m : Move α) : Vec3 α :=
  match m.shape with
  | .line => (m.target - m.source).direction
  | .arc arc => m.arcDirection arc (arc.fromAngle + arc.sweep)

/-- The point at a ratio of the way. -/
def pointAt (m : Move α) (ratio : α) : Vec3 α :=
  match m.shape with
  | .line => m.source + (m.target - m.source).scale ratio
  | .arc arc =>
    let angle := arc.fromAngle + arc.sweep * ratio
    let offset := Vec2.scale ⟨Scalar.cos angle, Scalar.sin angle⟩ arc.radius
    arc.plane.compose (arc.center + offset)
      (arc.plane.height m.source + m.rise arc.plane * ratio)

/-! ## Limits -/

/-- The share of the acceleration that a turn may take. -/
def maxTurnShare : α := 0.8

/-- The greatest squared speed of a move and the acceleration left for changes of speed. A turn
takes at most its share of the acceleration; the rest is what is left at a right angle to it. -/
def limits (m : Move α) (acceleration : α) : α × α :=
  let speed := perSecond m.feedRate
  let squared := speed * speed
  match m.shape with
  | .line => (squared, acceleration)
  | .arc arc =>
    let turn := squared / arc.radius
    let turnCap := maxTurnShare * acceleration
    let (squared, turn) :=
      if turnCap < turn then (turnCap * arc.radius, turnCap) else (squared, turn)
    (squared, Scalar.sqrt (Scalar.greatest (acceleration * acceleration - turn * turn) 0.0))

/-- A move measured and limited for planning. -/
def limited (m : Move α) (acceleration : α) : Move α :=
  let (peakSq, maxAccel) := m.limits acceleration
  { m with length := m.courseLength, peakSq, maxAccel }

/-! ## Steps -/

/-- How many samples a move gets. -/
def stepCount (m : Move α) (s : SamplingSettings α) : Nat :=
  match m.shape with
  | .line => max s.lineSteps 1
  | .arc arc =>
    chordCount (Scalar.widen arc.radius) (Scalar.widen arc.sweep) (Scalar.widen s.arcTolerance)
      s.maxArcSteps

/-- The ratio of the way after some of equal steps. -/
def stepRatio (step steps : Nat) : α := Scalar.ofCount step / Scalar.ofCount steps

/-- The corners of the polyline with the given count of equal steps. -/
def polyline (m : Move α) (steps : Nat) : List (Vec3 α) :=
  let steps := max steps 1
  (List.range (steps + 1)).map fun j => m.pointAt (stepRatio j steps)

end Move

/-- Whether a move is circular. -/
def Move.isArc {α : Type} (m : Move α) : Bool :=
  match m.shape with
  | .line => false
  | .arc _ => true

end Toolpath
