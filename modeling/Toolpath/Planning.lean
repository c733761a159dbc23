import Toolpath.Chain

/-!
# Speed planning

A chain starts and ends at rest. Three passes plan it. Forward, each peak is lowered to what can
be reached from the start; backward, to what can still be stopped before the end; then every move
is cut into phases that gain, keep and lose speed between the speeds at its two junctions. The
squared speed at a junction is the lesser of the two peaks beside it.

A squared speed `s` is reached from rest under acceleration `a` in a distance `s / 2a`; the ramps
of a profile are these distances for its entry and exit speed.
-/

namespace Toolpath

/-- A number was to be moved between two bounds that are not in order. -/
inductive BoundsFault where
  | unordered
  deriving DecidableEq

variable {α : Type}

/-- Move a number into `[lo, hi]`, where the bounds have to be in order. -/
def clampBetween [Arithmetic α] (x lo hi : α) : Except BoundsFault α :=
  if lo ≤ hi then .ok (Scalar.clamp x lo hi) else .error .unordered

variable [Scalar α]

/-! ## Peaks -/

/-- The peak that can be reached when the move is entered with the given squared speed. -/
def Move.lowerPeak (m : Move α) (entrySq : α) : Move α :=
  let twoA := 2.0 * m.maxAccel
  let ramp := if 0.0 < twoA then entrySq / twoA else 0.0
  { m with peakSq := Scalar.least m.peakSq (twoA * (ramp + m.length)) }

/-- Lower the peaks of moves that follow one with the given peak, or rest. -/
def lowerPeaks : Option α → List (Move α) → List (Move α)
  | _, [] => []
  | before, m :: rest =>
    let entrySq :=
      match before with
      | none => 0.0
      | some peak => Scalar.least peak m.peakSq
    let m := m.lowerPeak entrySq
    m :: lowerPeaks (some m.peakSq) rest

/-- Lower the peaks of a chain of moves from both ends. -/
def feasiblePeaks (moves : List (Move α)) : List (Move α) :=
  (lowerPeaks none (lowerPeaks none moves).reverse).reverse

/-! ## Phases -/

/-- Moves up to this length carry no profile. -/
def minPlannedLength : α := 0.000000001

/-- The time a phase takes under an acceleration. -/
def phaseDuration (kind : PhaseKind) (start stop fromSq toSq topSq maxAccel : α) : α :=
  match kind with
  | .const =>
    let speed := Scalar.sqrt topSq
    if 0.0 < speed then (stop - start) / speed else 0.0
  | _ => Arithmetic.abs (Scalar.sqrt fromSq - Scalar.sqrt toSq) / maxAccel

/-- A phase with the time it takes. -/
def Phase.timed (kind : PhaseKind) (start stop fromSq toSq topSq maxAccel : α) : Phase α :=
  ⟨kind, start, stop, fromSq, toSq, topSq,
    phaseDuration kind start stop fromSq toSq topSq maxAccel⟩

/-- Where a move stops gaining and starts losing speed, and its peak. Ramps that meet below the
limit make a triangle; else the limit is held between them. -/
def crest (m : Move α) (entryRamp exitRamp : α) : α × α × α :=
  let twoA := 2.0 * m.maxAccel
  let meeting := (exitRamp + m.length - entryRamp) / 2.0
  let meetingSq := twoA * (entryRamp + meeting)
  if (0.0 ≤ meeting ∧ meeting ≤ m.length) ∧ meetingSq ≤ m.peakSq then (meetingSq, meeting, meeting)
  else
    (m.peakSq, (m.peakSq - twoA * entryRamp) / twoA,
      (twoA * (exitRamp + m.length) - m.peakSq) / twoA)

/-- The phases that are not empty, between the bounds of the crest. -/
def phasesBetween (m : Move α) (peakSq accelStop decelStart entrySq exitSq : α) :
    List (Phase α) :=
  (if 0.0 < accelStop then
    [Phase.timed .accel 0.0 accelStop entrySq peakSq peakSq m.maxAccel] else []) ++
  (if accelStop < decelStart then
    [Phase.timed .const accelStop decelStart peakSq peakSq peakSq m.maxAccel] else []) ++
  (if decelStart < m.length then
    [Phase.timed .decel decelStart m.length peakSq exitSq peakSq m.maxAccel] else [])

/-- Cut a move into phases between the squared speeds at its ends. -/
def Move.withProfile (m : Move α) (entrySq exitSq : α) : Except BoundsFault (Move α) :=
  if m.length ≤ minPlannedLength ∨ m.maxAccel ≤ 0.0 then .ok { m with profile := .rest }
  else do
    let twoA := 2.0 * m.maxAccel
    let entryRamp := entrySq / twoA
    let exitRamp := exitSq / twoA
    let (peakSq, accelStop, decelStart) := crest m entryRamp exitRamp
    let accelStop ← clampBetween accelStop 0.0 m.length
    let decelStart ← clampBetween decelStart accelStop m.length
    let phases := phasesBetween m peakSq accelStop decelStart (Scalar.least entrySq peakSq)
      (Scalar.least exitSq peakSq)
    let duration := phases.foldl (fun t p => t + p.duration) 0.0
    return { m with peakSq, profile := ⟨duration, entryRamp, exitRamp, phases⟩ }

/-- Give every move its profile, after a move with the given peak, or rest. -/
def profileMoves : Option α → List (Move α) → Except BoundsFault (List (Move α))
  | _, [] => .ok []
  | before, m :: rest => do
    let entrySq :=
      match before with
      | none => 0.0
      | some peak => Scalar.least peak m.peakSq
    let exitSq :=
      match rest with
      | [] => 0.0
      | next :: _ => Scalar.least next.peakSq m.peakSq
    let planned ← m.withProfile entrySq exitSq
    let rest ← profileMoves (some m.peakSq) rest
    return planned :: rest

/-- Plan a chain. -/
def Chain.plan (c : Chain α) : Except BoundsFault (Chain α) :=
  (profileMoves none (feasiblePeaks c.moves)).map Chain.mk

end Toolpath
