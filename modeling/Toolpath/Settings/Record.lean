import Toolpath.Settings
import Toolpath.Json.Number
import Toolpath.Toml

/-!
# Settings as records

Settings are written as records of named fields, in JSON or in TOML. `RecordValue` is what both
kinds of values can be asked for; settings are read through it alone, and written in a
`RecordForm` alone. A missing section or field keeps its default, and an unknown one is passed over.
How JSON keeps single-precision numbers is a parameter (`Json.SingleText`).
-/

namespace Toolpath

/-- Values that records are written in. -/
class RecordValue (V : Type) where
  /-- The fields of a record, in the order of their names. -/
  fields? : List String → V → Option (List (Option V))
  /-- A count below `2 ^ bits`. -/
  count? : Nat → V → Option Nat
  /-- A single-precision number. -/
  single? : V → Option Float32
  /-- The name of a choice. -/
  choice? : V → Option String
  /-- The items of a list. -/
  items? : V → Option (List V)
  /-- The items of a list of three. -/
  three? : V → Option (V × V × V)

/-! ## The two kinds of values -/

namespace Json

/-- The name of a choice: the name alone, or an object with the name and null. -/
def choice? : Json → Option String
  | string name => some name
  | object [(name, null)] => some name
  | _ => none

/-- The items of an array of three. -/
def three? : Json → Option (Json × Json × Json)
  | array [a, b, c] => some (a, b, c)
  | _ => none

/-- Records in JSON, whose numbers are kept as given. -/
@[reducible]
def recordValue (t : SingleText) : RecordValue Json :=
  ⟨fields?, count?, singleBy? t.read?, choice?, items?, three?⟩

instance : RecordValue Json := recordValue .shortest

end Json

namespace Toml

/-- The fields of a record: a table, an array of the first fields and whatever follows them, or a
moment, which has no field in common with any record. -/
def fields? (names : List String) : Toml → Option (List (Option Toml))
  | table members => some (names.map fun name => members.lookup name)
  | array items =>
    let items := items.take names.length
    some (items.map some ++ List.replicate (names.length - items.length) none)
  | moment => some (names.map fun _ => none)
  | _ => none

/-- A count below `2 ^ bits`. -/
def count? (bits : Nat) : Toml → Option Nat
  | integer n => if 0 ≤ n ∧ n < Nat.pow 2 bits then some n.toNat else none
  | _ => none

/-- A single-precision number. -/
def single? : Toml → Option Float32
  | integer n => some (Number.singleOfInt n)
  | real x => some (Number.narrow x)
  | _ => none

/-- The name of a choice: the name alone, or a table of nothing but an empty table or array under
that name. -/
def choice? : Toml → Option String
  | string name => some name
  | table [(name, table [])] => some name
  | table [(name, array [])] => some name
  | _ => none

/-- The items of an array. -/
def items? : Toml → Option (List Toml)
  | array items => some items
  | _ => none

/-- The first three items of an array. -/
def three? : Toml → Option (Toml × Toml × Toml)
  | array (a :: b :: c :: _) => some (a, b, c)
  | _ => none

instance : RecordValue Toml := ⟨fields?, count?, single?, choice?, items?, three?⟩

end Toml

/-! ## Names -/

/-- The names of the kinds of strictness. -/
def Strictness.names : List (String × Strictness) := [("lenient", .lenient), ("strict", .strict)]

/-- The names of the axis conventions. -/
def AxisConvention.names : List (String × AxisConvention) := [("z_up", .zUp), ("y_up", .yUp)]

/-- The names of the unit families in settings. -/
def MeasurementSystem.names : List (String × MeasurementSystem) :=
  [("metric", .metric), ("imperial", .imperial)]

/-- The names of the feed units in settings. -/
def FeedUnits.names : List (String × FeedUnits) :=
  [("mm_per_min", .mmPerMin), ("mm_per_sec", .mmPerSec), ("in_per_min", .inPerMin),
    ("in_per_sec", .inPerSec)]

/-- The name of a choice; the first with the value. -/
def nameOf {β : Type} [DecidableEq β] (names : List (String × β)) (value : β) : String :=
  ((names.find? fun entry => entry.2 = value).map (·.1)).getD ""

/-! ## Reading -/

section Reading

variable {V : Type} [RecordValue V]

/-- Read a field, or take its default. -/
def fieldOr {β : Type} (default : β) (read : V → Option β) : Option V → Option β
  | none => some default
  | some v => read v

/-- Read a choice among named ones. -/
def readChoice {β : Type} (names : List (String × β)) (v : V) : Option β :=
  (RecordValue.choice? v).bind fun name => names.lookup name

/-- Read a point: three numbers. -/
def readPoint (v : V) : Option (Vec3 Float32) := do
  let (x, y, z) ← RecordValue.three? v
  return ⟨← RecordValue.single? x, ← RecordValue.single? y, ← RecordValue.single? z⟩

/-- The names of the machine's fields. -/
def MachineSettings.fieldNames : List String :=
  ["max_acceleration", "default_feed_rate", "travel_feed_rate", "initial_position", "work_offsets"]

/-- Read the machine section. -/
def MachineSettings.read? (v : V) : Option (MachineSettings Float32) := do
  let base : MachineSettings Float32 := .default
  match ← RecordValue.fields? fieldNames v with
  | [acceleration, defaultFeed, travelFeed, position, offsets] =>
    return {
      maxAcceleration := ← fieldOr base.maxAcceleration RecordValue.single? acceleration
      defaultFeedRate := ← fieldOr base.defaultFeedRate RecordValue.single? defaultFeed
      travelFeedRate := ← fieldOr base.travelFeedRate RecordValue.single? travelFeed
      initialPosition := ← fieldOr base.initialPosition readPoint position
      workOffsets := ← fieldOr base.workOffsets
        (fun v => (RecordValue.items? v).bind (List.mapM readPoint)) offsets }
  | _ => none

/-- Read the section on reading programs. -/
def Strictness.read? (v : V) : Option Strictness := do
  match ← RecordValue.fields? ["strictness"] v with
  | [strictness] => fieldOr .lenient (readChoice names) strictness
  | _ => none

/-- The names of the fields of sampling. -/
def SamplingSettings.fieldNames : List String :=
  ["line_sim_steps", "arc_tolerance", "max_arc_steps", "max_run_points", "dwell_samples",
    "dwell_interval"]

/-- Read the section on sampling. -/
def SamplingSettings.read? (v : V) : Option (SamplingSettings Float32) := do
  let base : SamplingSettings Float32 := .default
  match ← RecordValue.fields? fieldNames v with
  | [lineSteps, tolerance, arcSteps, runPoints, dwellSamples, dwellInterval] =>
    return {
      lineSteps := ← fieldOr base.lineSteps (RecordValue.count? 32) lineSteps
      arcTolerance := ← fieldOr base.arcTolerance RecordValue.single? tolerance
      maxArcSteps := ← fieldOr base.maxArcSteps (RecordValue.count? 32) arcSteps
      maxRunPoints := ← fieldOr base.maxRunPoints (RecordValue.count? 64) runPoints
      dwellSamples := ← fieldOr base.dwellSamples (RecordValue.count? 32) dwellSamples
      dwellInterval := ← fieldOr base.dwellInterval RecordValue.single? dwellInterval }
  | _ => none

/-- The names of the fields of display. -/
def DisplaySettings.fieldNames : List String :=
  ["axis_convention", "measurement_system", "feed_rate_units"]

/-- Read the section on display. -/
def DisplaySettings.read? (v : V) : Option DisplaySettings := do
  match ← RecordValue.fields? fieldNames v with
  | [convention, system, units] =>
    return {
      axisConvention := ← fieldOr .zUp (readChoice AxisConvention.names) convention
      measurementSystem := ← fieldOr .metric (readChoice MeasurementSystem.names) system
      feedUnits := ← fieldOr .mmPerMin (readChoice FeedUnits.names) units }
  | _ => none

/-- The names of the sections. -/
def Settings.sectionNames : List String := ["machine", "interpreter", "discretization", "display"]

/-- Read settings. -/
def Settings.read? (v : V) : Option (Settings Float32) := do
  match ← RecordValue.fields? sectionNames v with
  | [machine, interpreter, sampling, display] =>
    return {
      machine := ← fieldOr .default MachineSettings.read? machine
      strictness := ← fieldOr .lenient Strictness.read? interpreter
      sampling := ← fieldOr .default SamplingSettings.read? sampling
      display := ← fieldOr .default DisplaySettings.read? display }
  | _ => none

end Reading

/-! ## Writing -/

/-- A form that values of records are written in. -/
structure RecordForm (V : Type) where
  record : List (String × V) → V
  count : Nat → V
  single : Float32 → V
  choice : String → V
  list : List V → V

section Writing

variable {V : Type} (f : RecordForm V)

/-- A point as a list. -/
def Vec3.toRecord (p : Vec3 Float32) : V := f.list (p.toList.map f.single)

/-- The fields of the machine. -/
def MachineSettings.fields (m : MachineSettings Float32) : List (String × V) :=
  [("max_acceleration", f.single m.maxAcceleration),
    ("default_feed_rate", f.single m.defaultFeedRate),
    ("travel_feed_rate", f.single m.travelFeedRate),
    ("initial_position", m.initialPosition.toRecord f),
    ("work_offsets", f.list (m.workOffsets.map fun p => p.toRecord f))]

/-- The fields of the reading of programs. -/
def Strictness.fields (s : Strictness) : List (String × V) :=
  [("strictness", f.choice (nameOf Strictness.names s))]

/-- The fields of sampling. -/
def SamplingSettings.fields (s : SamplingSettings Float32) : List (String × V) :=
  [("line_sim_steps", f.count s.lineSteps),
    ("arc_tolerance", f.single s.arcTolerance),
    ("max_arc_steps", f.count s.maxArcSteps),
    ("max_run_points", f.count s.maxRunPoints),
    ("dwell_samples", f.count s.dwellSamples),
    ("dwell_interval", f.single s.dwellInterval)]

/-- The fields of display. -/
def DisplaySettings.fields (d : DisplaySettings) : List (String × V) :=
  [("axis_convention", f.choice (nameOf AxisConvention.names d.axisConvention)),
    ("measurement_system", f.choice (nameOf MeasurementSystem.names d.measurementSystem)),
    ("feed_rate_units", f.choice (nameOf FeedUnits.names d.feedUnits))]

/-- The sections with their fields. -/
def Settings.sections (s : Settings Float32) : List (String × List (String × V)) :=
  [("machine", s.machine.fields f), ("interpreter", s.strictness.fields f),
    ("discretization", s.sampling.fields f), ("display", s.display.fields f)]

/-- Settings as a record of records. -/
def Settings.toRecord (s : Settings Float32) : V :=
  f.record ((s.sections f).map fun (name, fields) => (name, f.record fields))

end Writing

/-- JSON objects. -/
def Json.form (t : Json.SingleText) : RecordForm Json :=
  ⟨.object, .ofNat, .ofSingleBy t.print, .string, .array⟩

/-- TOML tables. -/
def Toml.form : RecordForm Toml :=
  ⟨.table, fun n => .integer n, fun x => .real (Number.widen x), .string, .array⟩

/-- Settings as a JSON object. -/
def Settings.toJson (t : Json.SingleText) (s : Settings Float32) : Json := s.toRecord (Json.form t)

/-- Settings as the statements of a TOML document. The integers of TOML have 64 bits,
which only the count of points in a run can pass. -/
def Settings.toToml? (s : Settings Float32) : Option (List Toml.Statement) :=
  if Number.greatestInt64 < s.sampling.maxRunPoints then none
  else some (Toml.sectionStatements (s.sections Toml.form))

end Toolpath
