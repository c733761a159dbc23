import Toolpath.Number.Shortest

/-!
# Problems of a program

A line that cannot be honoured is reported and the rest of the program still runs. Problems are
kept in the order of the lines that raise them.
-/

namespace Toolpath

/-- Why a programmed arc radius describes no arc. -/
inductive RadiusFault where
  | coincidentEnds
  | shortRadius
  | other (reason : String)
  deriving DecidableEq

/-- The words for a radius fault. -/
def RadiusFault.reason : RadiusFault → String
  | coincidentEnds => "start and end point coincide"
  | shortRadius => "radius too small for the chord"
  | other reason => reason

/-- What is wrong with a line. -/
inductive Problem (α : Type) where
  /-- An arc without radius and without centre. -/
  | ambiguousArc (line : Nat)
  /-- An arc around its own start point. -/
  | degenerateArc (line : Nat)
  /-- An arc whose radius does not span its chord. -/
  | invalidRadius (line : Nat) (radius : α) (fault : RadiusFault)
  /-- A feed rate that is not above zero. -/
  | badFeedRate (line : Nat) (feedRate : α)
  /-- A known code without support. -/
  | unsupportedCode (line : Nat) (code : String)
  /-- A code that the table lacks. -/
  | unknownCode (line : Nat) (code : String)
  deriving DecidableEq

namespace Problem

variable {α : Type}

/-- The line a problem belongs to. -/
def line : Problem α → Nat
  | ambiguousArc line => line
  | degenerateArc line => line
  | invalidRadius line _ _ => line
  | badFeedRate line _ => line
  | unsupportedCode line _ => line
  | unknownCode line _ => line

/-- Whether the line lost its motion. -/
def dropsMotion : Problem α → Bool
  | ambiguousArc _ => true
  | degenerateArc _ => true
  | invalidRadius .. => true
  | badFeedRate .. => false
  | unsupportedCode .. => false
  | unknownCode .. => false

/-- The message for a problem. -/
def message : Problem Float32 → String
  | ambiguousArc line =>
    "Ambiguous arc at line " ++ toString line ++ ": no R word and no centre offset"
  | degenerateArc line =>
    "Degenerate arc at line " ++ toString line ++ ": centre offset has zero radius"
  | invalidRadius line radius fault =>
    "Invalid arc radius " ++ Number.plainSingle radius ++ " at line " ++ toString line ++ ": " ++
      fault.reason
  | badFeedRate line feedRate =>
    "Non-positive feed rate " ++ Number.plainSingle feedRate ++ " at line " ++ toString line
  | unsupportedCode line code =>
    "Unsupported G-Code at line " ++ toString line ++ ": G" ++ code
  | unknownCode line code => "Unknown G-Code at line " ++ toString line ++ ": G" ++ code

end Problem

/-- How many problems lost a motion. -/
def droppedMotions {α : Type} (problems : List (Problem α)) : Nat :=
  problems.countP Problem.dropsMotion

/-- The problems of one line. -/
def problemsOfLine {α : Type} (problems : List (Problem α)) (line : Nat) : List (Problem α) :=
  problems.filter (·.line = line)

end Toolpath
