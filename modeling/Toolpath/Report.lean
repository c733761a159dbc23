import Toolpath.Simulation

/-!
# Reports

The report on a simulation has one line per measure; lines without anything to say are left out.
-/

namespace Toolpath

/-- The text of a point. -/
def pointReport (system : MeasurementSystem) (p : Vec3 Float32) : String :=
  "(" ++ lengthText system p.x ++ ", " ++ lengthText system p.y ++ ", " ++ lengthText system p.z ++
    ")"

namespace Summary

variable (s : Summary Float32) (d : DisplaySettings)

/-- The line on moves and chains. -/
def movesLine : String :=
  "fragments: " ++ toString s.moves ++ " in " ++ toString s.chains ++ " groups"

/-- The line on vertices and runs. -/
def verticesLine : String :=
  "vertices:  " ++ toString s.vertices ++ " in " ++ toString s.runs ++ " runs"

/-- The line on the length of the path. -/
def lengthLine : String :=
  "length:    " ++ lengthText d.measurementSystem s.pathLength ++ " " ++
    d.measurementSystem.lengthUnit

/-- The line on the time. -/
def timeLine : String := "time:      " ++ durationText s.totalTime

/-- The line on the highest feed rate, if a move was made at one. -/
def feedLine? : Option String :=
  if 0.0 < s.maxFeedRate then
    some ("max feed:  " ++ feedText d.feedUnits s.maxFeedRate ++ " " ++ d.feedUnits.name)
  else none

/-- The line on the box, if there is one. -/
def boxLine? : Option String :=
  if s.box.IsValid then
    some ("bounds:    " ++ pointReport d.measurementSystem s.box.min ++ " to " ++
      pointReport d.measurementSystem s.box.max ++ " " ++ d.measurementSystem.lengthUnit)
  else none

/-- The line on problems, if there are any. -/
def problemsLine? : Option String :=
  if 0 < s.problems then
    some ("problems:  " ++ toString s.problems ++ " (" ++ toString s.droppedMotions ++
      " motions dropped)")
  else none

/-- The report as text. -/
def report : String :=
  "\n".intercalate
    ([s.movesLine, s.verticesLine, s.lengthLine d, s.timeLine] ++ (s.feedLine? d).toList ++
      (s.boxLine? d).toList ++ s.problemsLine?.toList)

end Summary

end Toolpath
