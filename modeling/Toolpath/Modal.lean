import Toolpath.Plane

/-!
# Modal codes

A code word sets one of the machine's modes, which stay until another code of the same group.
Codes missing from the table are unknown; a few known codes are accepted without effect, and a
few others are known and not supported.
-/

namespace Toolpath

/-- How axis words are turned into motion. -/
inductive MotionMode where
  | rapid
  | linear
  | clockwise
  | counterClockwise
  /-- Axis words produce no motion. -/
  | cancel
  deriving DecidableEq

/-- Whether coordinates are places or displacements. -/
inductive DistanceMode where
  | absolute
  | incremental
  deriving DecidableEq

/-- How corners are to be run; kept as a mode, without effect on the plan. -/
inductive PathControl where
  | exactPath
  | exactStop
  | continuous
  deriving DecidableEq

/-- The coordinate of a programmed one, given the current one. -/
def DistanceMode.resolve {α : Type} [Arithmetic α] (mode : DistanceMode) (current programmed : α) :
    α :=
  match mode with
  | absolute => programmed
  | incremental => current + programmed

/-- The number of coordinate origins: the machine's own and nine work origins. -/
abbrev originCount : Nat := 10

/-- The place of a coordinate origin in the settings. -/
abbrev Origin := Fin originCount

/-- The first work origin, which counts until a code selects another. -/
def Origin.first : Origin := 1

/-- What a code does to the machine. -/
inductive Effect where
  | none
  | unsupported
  | motion (mode : MotionMode)
  | plane (plane : Plane)
  | origin (origin : Origin)
  | pathControl (control : PathControl)
  | distance (mode : DistanceMode)
  deriving DecidableEq

/-- The table of codes, each with its effect. -/
def modalTable : List (String × Effect) :=
  [ ("0", .motion .rapid), ("1", .motion .linear), ("2", .motion .clockwise),
    ("3", .motion .counterClockwise), ("80", .motion .cancel),
    ("4", .none), ("49", .none), ("94", .none),
    ("20", .unsupported), ("21", .unsupported), ("40", .unsupported), ("41", .unsupported),
    ("42", .unsupported),
    ("17", .plane .xy), ("18", .plane .zx), ("19", .plane .yz),
    ("54", .origin .first), ("55", .origin 2), ("56", .origin 3), ("57", .origin 4),
    ("58", .origin 5), ("59", .origin 6), ("59.1", .origin 7), ("59.2", .origin 8),
    ("59.3", .origin 9),
    ("61", .pathControl .exactPath), ("61.1", .pathControl .exactStop),
    ("64", .pathControl .continuous),
    ("90", .distance .absolute), ("91", .distance .incremental) ]

/-- The effect of a code, if the table has it. -/
def Effect.ofCode? (code : String) : Option Effect := modalTable.lookup code

end Toolpath
