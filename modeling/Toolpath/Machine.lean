import Toolpath.Block
import Toolpath.Problem
import Toolpath.Move

/-!
# The machine

The machine holds the modes that codes set and the position that moves change. A block is executed
in three stages: its feed rate, its codes in order, then the motion that its axis words ask for in
the resulting mode. An arc that cannot be drawn is reported and moves nothing.
-/

namespace Toolpath

/-- The modes and the position of the machine. -/
structure Machine (α : Type) where
  position : Vec3 α
  motion : MotionMode
  distance : DistanceMode
  plane : Plane
  pathControl : PathControl
  /-- Programmed feed rate, per minute. -/
  feedRate : α
  origin : Origin
  deriving DecidableEq

/-- The circle an arc lies on: the way from the start point to the centre, and the radius. -/
structure Circle (α : Type) where
  toCenter : Vec2 α
  radius : α

/-- What executing a block comes to. -/
structure Outcome (α : Type) where
  machine : Machine α
  move? : Option (Move α)
  problems : List (Problem α)

namespace Machine

variable {α : Type} [Scalar α]

/-- The machine before the first block. -/
def initial (s : Settings α) : Machine α :=
  { position := s.machine.initialPosition
    motion := .rapid
    distance := .absolute
    plane := .xy
    pathControl := .exactPath
    feedRate := s.machine.defaultFeedRate
    origin := .first }

/-! ## Modes -/

/-- Take over the feed rate of a block, unless it is not above zero. -/
def applyFeed (m : Machine α) (b : Block) : Machine α × List (Problem α) :=
  match b.value? 'F' with
  | none => (m, [])
  | some feedRate =>
    if (0.0 : α) < feedRate then ({ m with feedRate }, [])
    else (m, [.badFeedRate b.line feedRate])

/-- Set the mode that an effect sets. -/
def applyEffect (m : Machine α) : Effect → Machine α
  | .none => m
  | .unsupported => m
  | .motion motion => { m with motion }
  | .plane plane => { m with plane }
  | .origin origin => { m with origin }
  | .pathControl pathControl => { m with pathControl }
  | .distance distance => { m with distance }

/-- The problem of a code without effect, which only a strict reading reports. -/
def codeProblem? (strictness : Strictness) (line : Nat) (code : String) : Option (Problem α) :=
  match strictness, Effect.ofCode? code with
  | .lenient, _ => none
  | .strict, none => some (.unknownCode line code)
  | .strict, some .unsupported => some (.unsupportedCode line code)
  | .strict, some _ => none

/-- Apply one code word. -/
def applyCode (m : Machine α) (w : Word) : Machine α :=
  match Effect.ofCode? w.code with
  | none => m
  | some effect => m.applyEffect effect

/-- Apply the code words of a block in order. -/
def applyCodes (m : Machine α) (s : Strictness) (b : Block) : Machine α × List (Problem α) :=
  (b.codeWords.foldl applyCode m, b.codeWords.filterMap fun w => codeProblem? s b.line w.code)

/-! ## Motion -/

/-- The position that axis words ask for. The offset of the current origin counts only on the
axes that are named. -/
def targetOf (m : Machine α) (s : MachineSettings α) (axes : AxisWords α) : Vec3 α :=
  let offset := s.originOffset m.origin
  .ofAxes fun axis =>
    match axes.get axis with
    | none => m.position.get axis
    | some x => m.distance.resolve (m.position.get axis) (x + offset.get axis)

/-- Displacements up to this on every axis are no motion. -/
def minDisplacement : α := 0.00001

/-- Radii and chords up to this describe no circle. -/
def minRadius : α := 0.000001

/-- The relative shortfall of a squared diameter that is still taken for a half circle. -/
def radiusSlack : α := 0.000001

/-- A straight move to the target, unless it is too close. -/
def straightMove (m : Machine α) (s : MachineSettings α) (line : Nat) (pace : Pace)
    (target : Vec3 α) : Option (Move α) :=
  if minDisplacement < (target - m.position).maxAbs then
    let feedRate :=
      match pace with
      | .rapid => s.travelFeedRate
      | .normal => m.feedRate
    some (.make .line m.position target feedRate line pace)
  else none

/-- The circle of a programmed radius. The centre lies off the middle of the chord, on the side
that the direction and the sign of the radius choose; a negative radius asks for the longer arc. -/
def circleOfRadius (chord : Vec2 α) (clockwise : Bool) (radius : α) :
    Except RadiusFault (Circle α) :=
  let chordSq := chord.lengthSq
  let diameterSq := 4.0 * radius * radius
  if chordSq ≤ minRadius * minRadius then .error .coincidentEnds
  else
    let left := diameterSq - chordSq
    if left < 0.0 ∧ left < -radiusSlack * Scalar.greatest diameterSq chordSq then
      .error .shortRadius
    else
      let left := if left < 0.0 then 0.0 else left
      let height := -(Scalar.sqrt left) / Scalar.sqrt chordSq
      let height := if clockwise then height else -height
      let (height, radius) := if radius < 0.0 then (-height, -radius) else (height, radius)
      .ok ⟨⟨0.5 * (chord.x - chord.y * height), 0.5 * (chord.y + chord.x * height)⟩, radius⟩

/-- The circle of an arc to the target: from the radius where one is given, else from the centre
offsets, of which a missing one is zero. -/
def circle (m : Machine α) (b : Block) (target : Vec3 α) (clockwise : Bool) :
    Except (Problem α) (Circle α) :=
  match b.value? 'R' with
  | some radius =>
    let chord := m.plane.project target - m.plane.project m.position
    match circleOfRadius chord clockwise radius with
    | .ok circle => .ok circle
    | .error fault => .error (.invalidRadius b.line radius fault)
  | none =>
    let first := b.value? m.plane.firstAxis.centerLetter
    let second := b.value? m.plane.secondAxis.centerLetter
    if first.isNone ∧ second.isNone then .error (.ambiguousArc b.line)
    else
      let toCenter : Vec2 α := ⟨first.getD 0.0, second.getD 0.0⟩
      let radius := toCenter.length
      if radius ≤ minRadius then .error (.degenerateArc b.line)
      else .ok ⟨toCenter, radius⟩

/-- The turn around a centre from the start point to a target, in the given direction; ends at
the same angle make a full turn. -/
def sweep (toCenter toTarget : Vec2 α) (clockwise : Bool) : α :=
  let angle := Scalar.atan2 (-toCenter.x * toTarget.y + toCenter.y * toTarget.x)
    (-toCenter.x * toTarget.x - toCenter.y * toTarget.y)
  if clockwise ∧ (0.0 : α) ≤ angle then angle - Scalar.tau
  else if ¬ clockwise ∧ angle ≤ (0.0 : α) then angle + Scalar.tau
  else angle

/-- The arc to the target on a circle. -/
def arcOf (m : Machine α) (circle : Circle α) (target : Vec3 α) (clockwise : Bool) : Arc α :=
  let start := m.plane.project m.position
  let toCenter := circle.toCenter
  { plane := m.plane
    center := start + toCenter
    fromAngle := Scalar.atan2 (-toCenter.y) (-toCenter.x)
    sweep := sweep toCenter (m.plane.project target - start - toCenter) clockwise
    radius := circle.radius }

/-- An arc move to the target. -/
def arcMove (m : Machine α) (b : Block) (target : Vec3 α) (clockwise : Bool) :
    Except (Problem α) (Move α) :=
  match m.circle b target clockwise with
  | .error problem => .error problem
  | .ok circle =>
    .ok (.make (.arc (m.arcOf circle target clockwise)) m.position target m.feedRate b.line
      .normal)

/-- The move that the axis words of a block ask for. -/
def motionOf (m : Machine α) (s : MachineSettings α) (b : Block) :
    Except (Problem α) (Option (Move α)) :=
  let axes : AxisWords α := b.axisWords
  if axes.isEmpty then .ok none
  else
    let target := m.targetOf s axes
    match m.motion with
    | .rapid => .ok (m.straightMove s b.line .rapid target)
    | .linear => .ok (m.straightMove s b.line .normal target)
    | .clockwise => (m.arcMove b target true).map some
    | .counterClockwise => (m.arcMove b target false).map some
    | .cancel => .ok none

/-- Execute a block. -/
def execute (m : Machine α) (s : Settings α) (b : Block) : Outcome α :=
  let (m, feedProblems) := m.applyFeed b
  let (m, codeProblems) := m.applyCodes s.strictness b
  match m.motionOf s.machine b with
  | .error problem => ⟨m, none, feedProblems ++ codeProblems ++ [problem]⟩
  | .ok none => ⟨m, none, feedProblems ++ codeProblems⟩
  | .ok (some move) =>
    ⟨{ m with position := move.target }, some move, feedProblems ++ codeProblems⟩

end Machine

end Toolpath
