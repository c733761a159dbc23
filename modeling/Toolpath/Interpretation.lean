import Toolpath.Machine

/-!
# Interpretation of programs

Executing the blocks of a program in order collects the moves, numbered from zero, and the
problems. Each move is handed to a listener as soon as it is made; the listener's state is
carried along.
-/

namespace Toolpath

/-- How far the execution of a program has come. -/
structure Interpretation (α σ : Type) where
  machine : Machine α
  path : Array (Move α)
  problems : Array (Problem α)
  /-- The state of the listener. -/
  heard : σ

namespace Interpretation

variable {α σ : Type} [Scalar α]

/-- The state before the first block. -/
def start (s : Settings α) (heard : σ) : Interpretation α σ := ⟨.initial s, #[], #[], heard⟩

/-- Execute one block. -/
def step (s : Settings α) (listen : σ → Move α → σ) (i : Interpretation α σ) (b : Block) :
    Interpretation α σ :=
  let outcome := i.machine.execute s b
  let problems := i.problems ++ outcome.problems
  match outcome.move? with
  | none => { i with machine := outcome.machine, problems }
  | some move =>
    let move := { move with index := i.path.size }
    ⟨outcome.machine, i.path.push move, problems, listen i.heard move⟩

/-- Execute a program. -/
def run (s : Settings α) (listen : σ → Move α → σ) (i : Interpretation α σ) (p : Program) :
    Interpretation α σ :=
  p.foldl (step s listen) i

end Interpretation

end Toolpath
