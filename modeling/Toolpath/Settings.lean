import Toolpath.Units
import Toolpath.Number.Shortest
import Toolpath.Convention
import Toolpath.Modal

/-!
# Planner settings

The settings have four sections: the machine, the reading of programs, the sampling of motion and
the display of results. `Settings.validate` names the first setting that no plan can be made with.
-/

namespace Toolpath

/-- Whether unsupported and unknown codes are reported. -/
inductive Strictness where
  | lenient
  | strict
  deriving DecidableEq

/-- What the machine can do and where it starts. -/
structure MachineSettings (α : Type) where
  /-- Acceleration limit, in units per second squared. -/
  maxAcceleration : α
  /-- Feed rate before the program sets one, per minute. -/
  defaultFeedRate : α
  /-- Feed rate of rapid moves, per minute. -/
  travelFeedRate : α
  /-- Where the machine stands before the first line. -/
  initialPosition : Vec3 α
  /-- The offsets of the coordinate origins. -/
  workOffsets : List (Vec3 α)
  deriving DecidableEq

/-- How finely motion is sampled. -/
structure SamplingSettings (α : Type) where
  /-- Samples per straight move. -/
  lineSteps : Nat
  /-- Greatest distance between an arc and its chords. -/
  arcTolerance : α
  /-- Greatest count of samples per arc. -/
  maxArcSteps : Nat
  /-- Greatest count of points in a run. -/
  maxRunPoints : Nat
  /-- Samples that mark the stop after a chain of moves. -/
  dwellSamples : Nat
  /-- Seconds between those samples. -/
  dwellInterval : α
  deriving DecidableEq

/-- How results are shown. -/
structure DisplaySettings where
  axisConvention : AxisConvention
  measurementSystem : MeasurementSystem
  feedUnits : FeedUnits
  deriving DecidableEq

/-- All settings. -/
structure Settings (α : Type) where
  machine : MachineSettings α
  strictness : Strictness
  sampling : SamplingSettings α
  display : DisplaySettings
  deriving DecidableEq

/-- The value of a setting that is out of range. -/
inductive SettingValue (α : Type) where
  | number (x : α)
  | count (n : Nat)
  deriving DecidableEq

/-- Why settings are rejected. -/
inductive SettingFault (α : Type) where
  | outOfRange (key : String) (value : SettingValue α)
  | wrongLength (key : String) (expected found : Nat)
  deriving DecidableEq

/-- The text of a setting's value. -/
def SettingValue.text : SettingValue Float32 → String
  | number x => Number.plainSingle x
  | count n => toString n

/-- The message for rejected settings. -/
def SettingFault.message : SettingFault Float32 → String
  | outOfRange key value => "Value out of range for '" ++ key ++ "': " ++ value.text
  | wrongLength key expected found =>
    "Expected " ++ toString expected ++ " entries for '" ++ key ++ "', found " ++ toString found

/-! ## Defaults -/

section Defaults

variable {α : Type} [Arithmetic α]

/-- The machine that is assumed where nothing is said. -/
def MachineSettings.default : MachineSettings α :=
  { maxAcceleration := 1000.0
    defaultFeedRate := 900.0
    travelFeedRate := 900.0
    initialPosition := .zero
    workOffsets := List.replicate originCount .zero }

/-- The sampling that is used where nothing is said. -/
def SamplingSettings.default : SamplingSettings α :=
  { lineSteps := 40
    arcTolerance := 0.0001
    maxArcSteps := 4096
    maxRunPoints := 10000
    dwellSamples := 10
    dwellInterval := 0.001 }

/-- Machine coordinates in millimetres. -/
def DisplaySettings.default : DisplaySettings := ⟨.zUp, .metric, .mmPerMin⟩

/-- The settings that are used where nothing is said. -/
def Settings.default : Settings α := ⟨.default, .lenient, .default, .default⟩

end Defaults

/-! ## Validation -/

section Validation

variable {α : Type} [Scalar α]

/-- A number that has to be finite and above zero. -/
def requirePositive (key : String) (x : α) : Except (SettingFault α) Unit :=
  if Scalar.isFinite x ∧ 0.0 < x then .ok () else .error (.outOfRange key (.number x))

/-- A count that has a least value. -/
def requireAtLeast (least : Nat) (key : String) (n : Nat) : Except (SettingFault α) Unit :=
  if least ≤ n then .ok () else .error (.outOfRange key (.count n))

/-- A number that has to be finite and not below zero. -/
def requireNonNegative (key : String) (x : α) : Except (SettingFault α) Unit :=
  if Scalar.isFinite x ∧ 0.0 ≤ x then .ok () else .error (.outOfRange key (.number x))

/-- One offset per coordinate origin. -/
def requireOffsets (key : String) (offsets : List (Vec3 α)) : Except (SettingFault α) Unit :=
  if offsets.length = originCount then .ok ()
  else .error (.wrongLength key originCount offsets.length)

/-- Accept the settings, or name the first that is out of range. A run of points has to hold its
first point, shared with the run before, and one more. -/
def Settings.validate (s : Settings α) : Except (SettingFault α) Unit := do
  requirePositive "machine.max_acceleration" s.machine.maxAcceleration
  requirePositive "machine.default_feed_rate" s.machine.defaultFeedRate
  requirePositive "machine.travel_feed_rate" s.machine.travelFeedRate
  requireOffsets "machine.work_offsets" s.machine.workOffsets
  requireAtLeast 1 "discretization.line_sim_steps" s.sampling.lineSteps
  requirePositive "discretization.arc_tolerance" s.sampling.arcTolerance
  requireAtLeast 1 "discretization.max_arc_steps" s.sampling.maxArcSteps
  requireAtLeast 2 "discretization.max_run_points" s.sampling.maxRunPoints
  requireNonNegative "discretization.dwell_interval" s.sampling.dwellInterval

/-- The offset of a coordinate origin; an origin without one lies at the zero point. -/
def MachineSettings.originOffset (m : MachineSettings α) (origin : Origin) : Vec3 α :=
  m.workOffsets[origin.val]?.getD .zero

end Validation

end Toolpath
