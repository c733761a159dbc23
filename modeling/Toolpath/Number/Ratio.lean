/-!
# Non-negative ratios

Exact quotients of natural numbers, the common ground of the binary formats and of decimal
text: a finite machine number is a ratio, and so is a run of decimal digits. Rounding to the
nearest integer sends a half to the even neighbour.
-/

namespace Toolpath.Number

/-- A quotient `num / den`; every ratio built here has a positive denominator. -/
structure Ratio where
  num : Nat
  den : Nat
  deriving DecidableEq

namespace Ratio

/-- The ratio `n / 1`. -/
def ofNat (n : Nat) : Ratio := ⟨n, 1⟩

/-- The ratio times `base ^ k`, for an exponent of either sign. -/
def scale (base : Nat) (r : Ratio) : Int → Ratio
  | .ofNat k => ⟨r.num * Nat.pow base k, r.den⟩
  | .negSucc k => ⟨r.num, r.den * Nat.pow base (k + 1)⟩

/-- The greatest integer not above the ratio. -/
def floor (r : Ratio) : Nat := r.num / r.den

/-- The least integer not below the ratio. -/
def ceil (r : Ratio) : Nat := (r.num + r.den - 1) / r.den

/-- A ratio is whole when its denominator divides its numerator. -/
def isWhole (r : Ratio) : Bool := r.num % r.den == 0

/-- The nearest integer, a half going to the even neighbour. -/
def roundHalfEven (r : Ratio) : Nat :=
  let whole := r.num / r.den
  let rest := r.num % r.den
  if 2 * rest < r.den then whole
  else if r.den < 2 * rest then whole + 1
  else whole + whole % 2

/-- The nearest integer, a half going up. -/
def roundHalfUp (r : Ratio) : Nat := (2 * r.num + r.den) / (2 * r.den)

/-- Whether `base ^ k` is at most the ratio. -/
def powLe (base : Nat) (k : Int) (r : Ratio) : Bool :=
  let s := r.scale base (-k)
  decide (s.den ≤ s.num)

/-- The exponent `k` with `2 ^ k ≤ r < 2 ^ (k + 1)`, for a positive ratio. -/
def log2 (r : Ratio) : Int :=
  let guess : Int := (r.num.log2 : Int) - r.den.log2
  if powLe 2 guess r then guess else guess - 1

/-- The exponent `k` with `10 ^ k ≤ r < 10 ^ (k + 1)`, for a positive ratio. -/
def log10 (r : Ratio) : Int :=
  let guess : Int := Int.fdiv (r.log2 * 30103) 100000
  if powLe 10 (guess + 1) r then guess + 1
  else if powLe 10 guess r then guess
  else guess - 1

end Ratio

end Toolpath.Number
