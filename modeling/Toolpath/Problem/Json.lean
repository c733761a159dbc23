import Toolpath.Problem
import Toolpath.Json.Number

/-!
# Problems as JSON

A problem is an object with the name of its kind and the fields of that kind.
-/

namespace Toolpath

namespace Problem

/-- The name of the kind of a problem. -/
def kindName : Problem Float32 → String
  | ambiguousArc _ => "AmbiguousArc"
  | degenerateArc _ => "DegenerateArc"
  | invalidRadius .. => "InvalidArcRadius"
  | badFeedRate .. => "NonPositiveFeedRate"
  | unsupportedCode .. => "UnsupportedCode"
  | unknownCode .. => "UnknownCode"

/-- The fields of a problem behind its line. -/
def details : Problem Float32 → List (String × Json)
  | ambiguousArc _ => []
  | degenerateArc _ => []
  | invalidRadius _ radius fault => [("radius", .ofSingle radius), ("reason", .string fault.reason)]
  | badFeedRate _ feedRate => [("feed_rate", .ofSingle feedRate)]
  | unsupportedCode _ code => [("code", .string code)]
  | unknownCode _ code => [("code", .string code)]

/-- A problem as JSON. -/
def toJson (p : Problem Float32) : Json :=
  .object [(p.kindName, .object (("line_number", .ofNat p.line) :: p.details))]

/-- Read the fields of a problem of a kind. -/
def ofBody? (kind : String) (body : Json) : Option (Problem Float32) := do
  match kind with
  | "AmbiguousArc" =>
    match ← body.fields? ["line_number"] with
    | [some line] => return .ambiguousArc (← line.count? 32)
    | _ => none
  | "DegenerateArc" =>
    match ← body.fields? ["line_number"] with
    | [some line] => return .degenerateArc (← line.count? 32)
    | _ => none
  | "InvalidArcRadius" =>
    match ← body.fields? ["line_number", "radius", "reason"] with
    | [some line, some radius, some reason] =>
      return .invalidRadius (← line.count? 32) (← radius.single?) (.other (← reason.text?))
    | _ => none
  | "NonPositiveFeedRate" =>
    match ← body.fields? ["line_number", "feed_rate"] with
    | [some line, some feedRate] => return .badFeedRate (← line.count? 32) (← feedRate.single?)
    | _ => none
  | "UnsupportedCode" =>
    match ← body.fields? ["line_number", "code"] with
    | [some line, some code] => return .unsupportedCode (← line.count? 32) (← code.text?)
    | _ => none
  | "UnknownCode" =>
    match ← body.fields? ["line_number", "code"] with
    | [some line, some code] => return .unknownCode (← line.count? 32) (← code.text?)
    | _ => none
  | _ => none

/-- Read a problem. -/
def ofJson? : Json → Option (Problem Float32)
  | .object [(kind, body)] => ofBody? kind body
  | _ => none

end Problem

/-- A list of problems as JSON. -/
def problemsToJson (problems : List (Problem Float32)) : Json :=
  .object [("entries", .array (problems.map Problem.toJson))]

end Toolpath
