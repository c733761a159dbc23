import Toolpath.Simulation
import Toolpath.Settings.Record
import Toolpath.Json.Printer

/-!
# Results as JSON

Summaries and planned chains are written with single-precision numbers. The vertex file is written
with the same numbers in double precision, its fields sorted by name.
-/

namespace Toolpath

/-- A point as a JSON array. -/
def Vec3.toJson (p : Vec3 Float32) : Json := .array (p.toList.map Json.ofSingle)

/-- A box, its fields in pairs. -/
def Box.toJson (box : Box Float32) : Json :=
  .object [
    ("min_x", .ofSingle box.min.x), ("max_x", .ofSingle box.max.x),
    ("min_y", .ofSingle box.min.y), ("max_y", .ofSingle box.max.y),
    ("min_z", .ofSingle box.min.z), ("max_z", .ofSingle box.max.z)]

/-- A summary. -/
def Summary.toJson (s : Summary Float32) : Json :=
  .object [
    ("fragments", .ofNat s.moves),
    ("groups", .ofNat s.chains),
    ("vertices", .ofNat s.vertices),
    ("runs", .ofNat s.runs),
    ("total_time", .ofSingle s.totalTime),
    ("path_length", .ofSingle s.pathLength),
    ("max_feed_rate", .ofSingle s.maxFeedRate),
    ("diagnostics", .ofNat s.problems),
    ("dropped_motions", .ofNat s.droppedMotions),
    ("bounds", s.box.toJson)]

/-- A plane, by its axes and the letters of its centre words. -/
def Plane.toJson (p : Plane) : Json :=
  .object [
    ("first_coord", .ofNat p.firstAxis.index),
    ("second_coord", .ofNat p.secondAxis.index),
    ("last_coord", .ofNat p.normalAxis.index),
    ("first_center_letter", .string (String.ofList [p.firstAxis.centerLetter])),
    ("second_center_letter", .string (String.ofList [p.secondAxis.centerLetter]))]

/-- A shape. -/
def Shape.toJson : Shape Float32 → Json
  | line => .string "Line"
  | arc a =>
    .object [("Arc", .object [
      ("plane", a.plane.toJson),
      ("center", .array [.ofSingle a.center.x, .ofSingle a.center.y]),
      ("from_angle", .ofSingle a.fromAngle),
      ("angular_distance", .ofSingle a.sweep),
      ("radius", .ofSingle a.radius)])]

/-- The name of a pace. -/
def Pace.name : Pace → String
  | rapid => "Rapid"
  | normal => "Normal"

/-- The name of a kind of phase. -/
def PhaseKind.name : PhaseKind → String
  | accel => "Accel"
  | const => "Const"
  | decel => "Decel"

/-- A phase. -/
def Phase.toJson (p : Phase Float32) : Json :=
  .object [
    ("speed_type", .string p.kind.name),
    ("start_x", .ofSingle p.start),
    ("stop_x", .ofSingle p.stop),
    ("from_sq_speed", .ofSingle p.fromSq),
    ("to_sq_speed", .ofSingle p.toSq),
    ("squared_speed", .ofSingle p.topSq),
    ("duration", .ofSingle p.duration)]

/-- A move. -/
def Move.toJson (m : Move Float32) : Json :=
  .object [
    ("index", .ofNat m.index),
    ("kind", m.shape.toJson),
    ("from", m.source.toJson),
    ("to", m.target.toJson),
    ("feed_rate", .ofSingle m.feedRate),
    ("line_no", .ofNat m.line),
    ("speed_tag", .string m.pace.name),
    ("length", .ofSingle m.length),
    ("squared_speed", .ofSingle m.peakSq),
    ("max_accel", .ofSingle m.maxAccel),
    ("duration", .ofSingle m.profile.duration),
    ("accel_len", .ofSingle m.profile.entryRamp),
    ("decel_len", .ofSingle m.profile.exitRamp),
    ("run_fragments", .array (m.profile.phases.map Phase.toJson))]

/-- A list of chains. -/
def chainsToJson (chains : List (Chain Float32)) : Json :=
  .array (chains.map fun c => .object [("fragments", .array (c.moves.map Move.toJson))])

/-- A vertex buffer. -/
def VertexBuffer.toJson (b : VertexBuffer Float32) : Json :=
  let wide (x : Float32) : Json := .ofDouble (Number.widen x)
  .object [
    ("bounds", .object [
      ("max_x", wide b.box.max.x), ("max_y", wide b.box.max.y), ("max_z", wide b.box.max.z),
      ("min_x", wide b.box.min.x), ("min_y", wide b.box.min.y), ("min_z", wide b.box.min.z)]),
    ("vertices", .array (b.numbers.map wide))]

end Toolpath
