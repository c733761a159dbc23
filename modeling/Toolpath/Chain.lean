import Toolpath.Move

/-!
# Chains of moves

The machine stops where the direction of motion changes too much. A chain is a longest stretch of
moves between two stops: each of its moves leaves in nearly the direction in which the next one
starts.
-/

namespace Toolpath

/-- Moves that are run through without a stop. -/
structure Chain (α : Type) where
  moves : List (Move α)
  deriving DecidableEq

variable {α : Type} [Scalar α]

/-- Two unit vectors sum to length 2 when parallel; a sum of this length is still smooth. -/
def smoothLength : α := 1.95

/-- Whether motion may flow from one direction into another without a stop. -/
def IsSmooth (exit entry : Vec3 α) : Prop := smoothLength * smoothLength ≤ (exit + entry).lengthSq

instance (exit entry : Vec3 α) : Decidable (IsSmooth exit entry) := by
  unfold IsSmooth
  infer_instance

/-- Whether the next move may follow without a stop. -/
def Move.flowsInto (m next : Move α) : Bool := decide (IsSmooth m.exitDirection next.entryDirection)

namespace Chain

/-- Split a path into chains of measured and limited moves. -/
def ofPath (path : List (Move α)) (acceleration : α) : List (Chain α) :=
  ((path.map (·.limited acceleration)).splitBy Move.flowsInto).map Chain.mk

/-- The time the chain takes, once it is planned. -/
def duration (c : Chain α) : α := Scalar.sum (c.moves.map (·.profile.duration))

/-- The length of the chain. -/
def length (c : Chain α) : α := Scalar.sum (c.moves.map (·.length))

/-- The point where the chain starts. -/
def source? {α : Type} (c : Chain α) : Option (Vec3 α) := c.moves.head?.map (·.source)

/-- The point where the chain ends. -/
def target? {α : Type} (c : Chain α) : Option (Vec3 α) := c.moves.getLast?.map (·.target)

end Chain

end Toolpath
