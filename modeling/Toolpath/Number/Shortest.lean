import Toolpath.Number.Fixed

/-!
# Shortest decimal text

The digits printed for a machine number are the fewest that read back as the same number, and of
those the nearest to it. A number reads back from every decimal between the midpoints to its two
neighbours, the midpoints included when its mantissa is even. For a growing count of digits the
two neighbours of the number on that decimal grid are tested; the first grid with a hit wins.

`DecimalStyle` holds what is left for an output format to decide.
-/

namespace Toolpath.Number

/-- Which way the last digit goes when two shortest decimals are equally near. -/
inductive DecimalTie where
  | up
  | even
  deriving DecidableEq

/-- A positive number in units of a quarter of its last place, with the ends of the interval
that rounds to it. -/
structure RoundingInterval where
  lower : Nat
  middle : Nat
  upper : Nat
  inclusive : Bool

namespace RoundingInterval

/-- The interval around `mantissa * 2 ^ exponent`, in units of `2 ^ (exponent - 2)`. The gap below
a power of two is half the gap above it, except at the least exponent. -/
def ofMantissa (f : BinaryFormat) (mantissa : Nat) (exponent : Int) : RoundingInterval :=
  let narrowBelow := mantissa = f.hiddenBit ∧ f.minExponent < exponent
  { lower := if narrowBelow then 4 * mantissa - 1 else 4 * mantissa - 2
    middle := 4 * mantissa
    upper := 4 * mantissa + 2
    inclusive := mantissa % 2 == 0 }

/-- Whether a decimal lies in the interval; `unit` is the interval's unit measured in steps of
the decimal grid. -/
def contains (i : RoundingInterval) (unit : Ratio) (decimal : Nat) : Bool :=
  let x := decimal * unit.den
  if i.inclusive then decide (i.lower * unit.num ≤ x ∧ x ≤ i.upper * unit.num)
  else decide (i.lower * unit.num < x ∧ x < i.upper * unit.num)

/-- The nearer of the two neighbours on a decimal grid that lies in the interval. -/
def nearest? (i : RoundingInterval) (tie : DecimalTie) (unit : Ratio) : Option Nat :=
  let below := i.middle * unit.num / unit.den
  let toBelow := i.middle * unit.num - below * unit.den
  let toAbove := (below + 1) * unit.den - i.middle * unit.num
  let preferBelow :=
    toBelow < toAbove ∨ (toBelow = toAbove ∧ tie = .even ∧ below % 2 = 0)
  match i.contains unit below, i.contains unit (below + 1) with
  | true, true => some (if preferBelow then below else below + 1)
  | true, false => some below
  | false, true => some (below + 1)
  | false, false => none

/-- Try grids of step `10 ^ position`, `10 ^ (position - 1)`, and so on. -/
def shortest (i : RoundingInterval) (tie : DecimalTie) (exponent position : Int) :
    Nat → Nat × Int
  | 0 => (i.middle, position)
  | fuel + 1 =>
    let unit := ((Ratio.ofNat 1).scale 2 (exponent - 2)).scale 10 (-position)
    match i.nearest? tie unit with
    | some digits => (digits, position)
    | none => i.shortest tie exponent (position - 1) fuel

end RoundingInterval

/-- Drop trailing zeros of a decimal `digits * 10 ^ position`. -/
def dropZeros : Nat → Nat → Int → Nat × Int
  | 0, digits, position => (digits, position)
  | fuel + 1, digits, position =>
    if digits % 10 = 0 then dropZeros fuel (digits / 10) (position + 1) else (digits, position)

/-- The shortest decimal `(digits, position)` of a positive magnitude. -/
def shortestDecimal (f : BinaryFormat) (tie : DecimalTie) (mantissa : Nat) (exponent : Int) :
    Nat × Int :=
  let position := ((Ratio.ofNat mantissa).scale 2 exponent).log10
  let (digits, position) :=
    (RoundingInterval.ofMantissa f mantissa exponent).shortest tie exponent position 20
  dropZeros 20 digits position

/-- How an output format writes decimals. -/
structure DecimalStyle where
  /-- How a tie between two shortest decimals goes. -/
  tie : DecimalTie
  /-- The positions of the decimal point, counted from the first digit, that are written without
  an exponent: from the first to before the second; `none` when all are. -/
  positional : Option (Int × Int)
  /-- What is put behind a whole number written without an exponent. -/
  wholeMark : String
  /-- The text of something that is no number. -/
  nan : String
  /-- The texts of the two infinities, the positive one first. -/
  infinity : String × String

namespace DecimalStyle

/-- Positional text of `digits * 10 ^ position`. -/
def positionalText (style : DecimalStyle) (digits : Nat) (position : Int) : String :=
  match position with
  | .ofNat zeros => toString (digits * Nat.pow 10 zeros) ++ style.wholeMark
  | .negSucc places => pointText (places + 1) digits

/-- Text of `digits * 10 ^ position` with an exponent: one digit before the point. -/
def exponentText (digits : Nat) (position : Int) : String :=
  let text := toString digits
  let exponent := position + (text.length - 1 : Nat)
  let mantissa :=
    match text.toList with
    | [] => ""
    | [c] => String.ofList [c]
    | c :: rest => String.ofList (c :: '.' :: rest)
  mantissa ++ "e" ++ (if exponent < 0 then "-" else "+") ++ toString exponent.natAbs

/-- The text of a datum of the given format. -/
def render (style : DecimalStyle) (f : BinaryFormat) : Datum → String
  | .nan => style.nan
  | .infinite negative => if negative then style.infinity.2 else style.infinity.1
  | .finite negative mantissa exponent =>
    let sign := if negative then "-" else ""
    if mantissa = 0 then sign ++ "0" ++ style.wholeMark
    else
      let (digits, position) := shortestDecimal f style.tie mantissa exponent
      let point := position + (toString digits).length
      let plain :=
        match style.positional with
        | none => true
        | some (low, high) => decide (low ≤ point ∧ point < high)
      sign ++ if plain then style.positionalText digits position else exponentText digits position

/-- Text for people: no exponent, whole numbers without a point. -/
def plain : DecimalStyle :=
  { tie := .up, positional := none, wholeMark := "", nan := "NaN", infinity := ("inf", "-inf") }

end DecimalStyle

/-- The plain text of a single-precision number. -/
def plainSingle (x : Float32) : String :=
  DecimalStyle.plain.render .single (singleDatum x)

/-- The plain text of a double-precision number. -/
def plainDouble (x : Float) : String :=
  DecimalStyle.plain.render .double (doubleDatum x)

end Toolpath.Number
