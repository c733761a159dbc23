import Toolpath.Bisection
import Toolpath.Box
import Toolpath.Move

/-!
# Tracks

A track holds the timed samples of a path in runs, batches for a renderer. A run has one pace and
a limited count of points; it is closed when the pace changes or the count is reached, and the
next run starts with a copy of its last sample, so that the polyline stays connected.

Beside the runs the track keeps one span per move: the line it comes from, its polyline, where its
samples lie among the vertices and when it runs.
-/

namespace Toolpath

/-- A point and the time, in seconds since the start of the program. -/
structure Sample (α : Type) where
  point : Vec3 α
  time : α
  deriving DecidableEq

/-- A connected polyline of one pace. -/
structure Run (α : Type) where
  samples : Array (Sample α)
  pace : Pace
  deriving DecidableEq

/-- Where a move lies on the track. -/
structure Span (α : Type) where
  line : Nat
  index : Nat
  /-- The corners of the polyline of the move. -/
  corners : List (Vec3 α)
  /-- The first vertex, which is the start point of the move. -/
  firstVertex : Nat
  /-- The vertex after the last. -/
  endVertex : Nat
  startTime : α
  endTime : α
  deriving DecidableEq

/-- The runs and spans of a path. -/
structure Track (α : Type) where
  settings : SamplingSettings α
  /-- The closed runs. -/
  runs : Array (Run α)
  /-- The count of vertices in the closed runs. -/
  closedCount : Nat
  /-- The copy of the last closed sample that the open run starts with. -/
  seed : Option (Sample α)
  /-- The samples of the open run behind its seed. -/
  fresh : Array (Sample α)
  /-- The pace of the open run. -/
  pace : Pace
  spans : Array (Span α)

namespace Run

variable {α : Type} [Arithmetic α]

/-- The place at a time between two samples; the later one where they share their time. -/
def between (before after : Sample α) (time : α) : Vec3 α :=
  let ratio :=
    if before.time < after.time then (time - before.time) / (after.time - before.time) else 1.0
  before.point.lerp after.point ratio

/-- The place at a time: between the two samples around it, or at an end. -/
def positionAt? (r : Run α) (time : α) : Option (Vec3 α) :=
  let next := leadingCount r.samples fun s => decide (s.time < time)
  let before? := if next = 0 then none else r.samples[next - 1]?
  match before?, r.samples[next]? with
  | _, none => r.samples.back?.map (·.point)
  | none, some after => some after.point
  | some before, some after => some (between before after time)

end Run

namespace Track

variable {α : Type}

/-- A track without samples. -/
def empty (settings : SamplingSettings α) : Track α :=
  { settings, runs := #[], closedCount := 0, seed := none, fresh := #[], pace := .normal
    spans := #[] }

/-- The samples of the open run. -/
def openSamples (t : Track α) : Array (Sample α) := t.seed.toArray ++ t.fresh

/-- The count of samples in the open run. -/
def openCount (t : Track α) : Nat := (if t.seed.isSome then 1 else 0) + t.fresh.size

/-- Whether no sample has been added. -/
def isEmpty (t : Track α) : Bool := t.runs.isEmpty && t.openCount == 0

/-- Close the open run, unless it holds nothing but its seed. -/
def close (t : Track α) : Track α :=
  match t.fresh.back? with
  | none => t
  | some last =>
    let samples := t.openSamples
    { t with
      runs := t.runs.push ⟨samples, t.pace⟩
      closedCount := t.closedCount + samples.size
      seed := some last
      fresh := #[] }

/-- Whether the open run cannot take a sample of a pace. -/
def needsClose (t : Track α) (pace : Pace) : Bool :=
  t.openCount != 0 && (pace != t.pace || decide (t.settings.maxRunPoints ≤ t.openCount))

/-- Add a sample; the second value is its place among the vertices. -/
def add (t : Track α) (s : Sample α) (pace : Pace) : Track α × Nat :=
  let t := if t.needsClose pace then t.close else t
  let t := { t with pace, fresh := t.fresh.push s }
  (t, t.closedCount + t.openCount - 1)

/-- The count of vertices there will be once the open run is closed. -/
def vertexCount (t : Track α) : Nat :=
  if t.fresh.isEmpty then t.closedCount else t.closedCount + t.openCount

/-- The vertices of the closed runs in order. -/
def vertices (t : Track α) : List (Vec3 α × Pace) :=
  t.runs.toList.flatMap fun r => r.samples.toList.map fun s => (s.point, r.pace)

/-! ## Spans -/

/-- Note where the samples of a move lie. -/
def mark (t : Track α) (index firstVertex endVertex : Nat) (startTime endTime : α) : Track α :=
  match t.spans[index]? with
  | none => t
  | some span =>
    if span.index = index then
      let span := { span with firstVertex, endVertex, startTime, endTime }
      { t with spans := t.spans.setIfInBounds index span }
    else t

section Lookup

variable [Scalar α]

/-- Open a span for a new move; arcs keep the polyline they are sampled along. -/
def enter (t : Track α) (m : Move α) : Track α :=
  let steps := if m.isArc then m.stepCount t.settings else 1
  { t with spans := t.spans.push ⟨m.line, m.index, m.polyline steps, 0, 0, 0.0, 0.0⟩ }

/-- The line that runs at a time; between two moves it is the line of the one just done. -/
def lineAt? (t : Track α) (time : α) : Option Nat :=
  let started := leadingCount t.spans fun span => decide (span.startTime ≤ time)
  t.spans[started - 1]?.map (·.line)

/-- The place at a time, in the first closed run that lasts until then. -/
def positionAt? (t : Track α) (time : α) : Option (Vec3 α) :=
  let lasts (r : Run α) : Bool := (r.samples.back?.map fun s => decide (time ≤ s.time)).getD false
  match t.runs.find? lasts with
  | some r => r.positionAt? time
  | none => t.runs.back?.bind (·.positionAt? time)

end Lookup

end Track

end Toolpath
