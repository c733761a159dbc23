import Toolpath.Number.Fixed
import Toolpath.Scalar.Single

/-!
# Units of measurement

Programs give feed rates per minute and the planner works per second. Lengths, feed rates and
times are shown with a fixed count of decimals, times as a clock.
-/

namespace Toolpath

/-- The unit family of a report. -/
inductive MeasurementSystem where
  | metric
  | imperial
  deriving DecidableEq

/-- The unit of feed rates in a report. -/
inductive FeedUnits where
  | mmPerMin
  | mmPerSec
  | inPerMin
  | inPerSec
  deriving DecidableEq

/-- A feed rate per minute as a speed per second. -/
def perSecond {α : Type} [Arithmetic α] (feedRate : α) : α := feedRate / 60.0

/-- Millimetres in an inch. -/
def mmPerInch : Float32 := 25.4

namespace MeasurementSystem

/-- The name of a unit family. -/
def name : MeasurementSystem → String
  | metric => "Metric"
  | imperial => "Imperial"

/-- The sign of the length unit. -/
def lengthUnit : MeasurementSystem → String
  | metric => "mm"
  | imperial => "in"

/-- Read the name of a unit family or its length unit, in any case. Only the Latin capitals have
lower-case forms among the letters of these names. -/
def ofName (name : String) : Except String MeasurementSystem :=
  match name.map Char.toLower with
  | "metric" => .ok metric
  | "mm" => .ok metric
  | "imperial" => .ok imperial
  | "inch" => .ok imperial
  | "in" => .ok imperial
  | _ => .error ("Unknown measurement system: " ++ name)

/-- A length in the unit of the family. -/
def convert (system : MeasurementSystem) (millimetres : Float32) : Float32 :=
  match system with
  | metric => millimetres
  | imperial => millimetres / mmPerInch

end MeasurementSystem

namespace FeedUnits

/-- The sign of a feed unit. -/
def name : FeedUnits → String
  | mmPerMin => "mm/min"
  | mmPerSec => "mm/sec"
  | inPerMin => "in/min"
  | inPerSec => "in/sec"

/-- A feed rate in the given unit. -/
def convert (units : FeedUnits) (feedRate : Float32) : Float32 :=
  match units with
  | mmPerMin => feedRate
  | mmPerSec => perSecond feedRate
  | inPerMin => feedRate / mmPerInch
  | inPerSec => perSecond (feedRate / mmPerInch)

end FeedUnits

/-- The text of a number with three decimals. -/
def threeDecimals (x : Float32) : String := Number.fixedText 3 (Number.singleDatum x)

/-- The text of a length in millimetres. -/
def lengthText (system : MeasurementSystem) (millimetres : Float32) : String :=
  threeDecimals (system.convert millimetres)

/-- The text of a feed rate in millimetres per minute. -/
def feedText (units : FeedUnits) (feedRate : Float32) : String :=
  threeDecimals (units.convert feedRate)

/-- Put zeros between the sign and the digits of a text until it has the given width. -/
def padNumber (width : Nat) (text : String) : String :=
  match text.toList with
  | '-' :: digits => "-" ++ Number.padZeros (width - 1) (String.ofList digits)
  | _ => Number.padZeros width text

/-- A time as a clock with tenths of seconds; hours are left out when there are none. -/
def durationText (seconds : Float32) : String :=
  let seconds := Scalar.greatest seconds 0.0
  let hours := Number.countOfSingle (seconds / 3600.0)
  let minutes := Number.countOfSingle (Number.remainder seconds 3600 / 60.0)
  let rest := padNumber 4 (Number.fixedText 1 (Number.singleDatum (Number.remainder seconds 60)))
  if 0 < hours then
    toString hours ++ ":" ++ Number.padZeros 2 (toString minutes) ++ ":" ++ rest
  else toString minutes ++ ":" ++ rest

end Toolpath
