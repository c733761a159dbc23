/-!
# Bisection

The boundary of a test that holds up to some place and fails from there on is found by halving.
The count of steps depends on the size alone.
-/

namespace Toolpath

/-- The boundary of `test` in `[base, base + size]`, given that `test` holds before `base`. -/
def boundaryIn (test : Nat → Bool) (base size : Nat) : Nat :=
  if size = 0 then base
  else if size = 1 then if test base then base + 1 else base
  else
    let half := size / 2
    boundaryIn test (if test (base + half) then base + half else base) (size - half)
termination_by size
decreasing_by omega

/-- The number of leading elements of an array that pass a test, which no later one passes. -/
def leadingCount {β : Type} (xs : Array β) (test : β → Bool) : Nat :=
  boundaryIn (fun i => (xs[i]?.map test).getD false) 0 xs.size

end Toolpath
