/-!
# The numbers of the planner

All geometry and timing is written once, over any type of numbers with the operations of
`Scalar`. Single-precision numbers run the planner; the exact reals are a second reading, in
which its formulas can be compared with the mathematics they stand for.

Comparisons may fail both ways, as they do for a machine value that is no number. So the lesser
and the greater of two numbers, and the clamp, are defined here by the comparisons they make.
-/

namespace Toolpath

/-- The arithmetic that every kind of number has. -/
class Arithmetic (α : Type) extends Add α, Sub α, Mul α, Div α, Neg α, LT α, LE α,
    OfScientific α where
  decLt : DecidableLT α
  decLe : DecidableLE α
  /-- The magnitude of a number. -/
  abs : α → α

attribute [reducible, instance] Arithmetic.decLt Arithmetic.decLe

/-- Numbers wide enough for counting the chords of an arc. -/
class WideScalar (ω : Type) extends Arithmetic ω where
  /-- Half the circumference of the unit circle. -/
  pi : ω
  /-- The angle in `[0, pi]` with the given cosine. -/
  arccos : ω → ω
  /-- The least count not below a number; `none` for a number that is not finite. -/
  ceilCount? : ω → Option Nat

/-- The numbers that lengths, speeds, times and angles are measured in. -/
class Scalar (α : Type) extends Arithmetic α where
  /-- The full turn. -/
  tau : α
  /-- The greatest finite number, where there is one. -/
  largest : α
  sqrt : α → α
  sin : α → α
  cos : α → α
  /-- The angle of the direction with the given second and first coordinate. -/
  atan2 : α → α → α
  /-- The length of the diagonal over two sides. -/
  hypot : α → α → α
  /-- Whether a number is neither infinite nor undefined. -/
  isFinite : α → Bool
  /-- The number nearest to a count. -/
  ofCount : Nat → α
  /-- The number nearest to a programmed value. -/
  ofProgrammed : Float → α
  /-- The numbers used for counting chords. -/
  Wide : Type
  wide : WideScalar Wide
  /-- The same number among the wide ones. -/
  widen : α → Wide

attribute [reducible, instance] Scalar.wide

namespace Scalar

export Arithmetic (abs)

variable {α : Type} [Arithmetic α]

/-- The lesser of two numbers; an undefined one gives way to the other. -/
def least (a b : α) : α := if b < a then b else if a ≤ a then a else b

/-- The greater of two numbers; an undefined one gives way to the other. -/
def greatest (a b : α) : α := if a < b then b else if a ≤ a then a else b

/-- The first of two numbers where it is the greater, else the second. -/
def larger (a b : α) : α := if b < a then a else b

/-- Move a number into `[lo, hi]`; an undefined number stays. -/
def clamp (x lo hi : α) : α := if x < lo then lo else if hi < x then hi else x

/-- The sum of a list, taken from the left and started at the zero that changes no term. -/
def sum (xs : List α) : α := xs.foldl (· + ·) (-(0.0 : α))

end Scalar

end Toolpath
