import Toolpath.Number.Ratio

/-!
# Binary interchange formats

A finite datum of a binary format is a sign and a magnitude `mantissa * 2 ^ exponent`. `decode`
reads the datum off a bit pattern; `encode` rounds an exact ratio to the nearest bit pattern, a
half going to the even mantissa, and reaches infinity past the largest finite value.

The exponent field and the fraction are stored next to each other, so the pattern of a positive
number is `(exponent - minExponent) * 2 ^ fractionBits + mantissa`: a hidden bit in the mantissa
and a carry out of the rounding both land in the exponent field by plain addition.
-/

namespace Toolpath.Number

/-- The widths of the two stored fields of a binary format. -/
structure BinaryFormat where
  fractionBits : Nat
  exponentBits : Nat
  deriving DecidableEq

/-- What a bit pattern stands for. -/
inductive Datum where
  | nan
  | infinite (negative : Bool)
  | finite (negative : Bool) (mantissa : Nat) (exponent : Int)
  deriving DecidableEq

namespace BinaryFormat

/-- The 32-bit format. -/
def single : BinaryFormat := ⟨23, 8⟩

/-- The 64-bit format. -/
def double : BinaryFormat := ⟨52, 11⟩

/-- Exponent of the least positive magnitude. -/
def minExponent (f : BinaryFormat) : Int :=
  2 - Nat.pow 2 (f.exponentBits - 1) - f.fractionBits

/-- The bit of a mantissa above those that are stored. -/
def hiddenBit (f : BinaryFormat) : Nat := Nat.pow 2 f.fractionBits

/-- The pattern of positive infinity; a larger magnitude field is no number. -/
def infinityBits (f : BinaryFormat) : Nat := (Nat.pow 2 f.exponentBits - 1) * f.hiddenBit

/-- The weight of the sign bit. -/
def signWeight (f : BinaryFormat) : Nat := Nat.pow 2 (f.fractionBits + f.exponentBits)

/-- The pattern with the given sign and magnitude field. -/
def withSign (f : BinaryFormat) (negative : Bool) (magnitude : Nat) : Nat :=
  if negative then f.signWeight + magnitude else magnitude

/-- Read a bit pattern. -/
def decode (f : BinaryFormat) (bits : Nat) : Datum :=
  let negative := bits / f.signWeight % 2 == 1
  let magnitude := bits % f.signWeight
  let field := magnitude / f.hiddenBit
  let fraction := magnitude % f.hiddenBit
  if f.infinityBits < magnitude then .nan
  else if magnitude = f.infinityBits then .infinite negative
  else if field = 0 then .finite negative fraction f.minExponent
  else .finite negative (fraction + f.hiddenBit) (f.minExponent + (field - 1 : Nat))

/-- The magnitude field nearest to a ratio. -/
def encodeMagnitude (f : BinaryFormat) (r : Ratio) : Nat :=
  if r.num = 0 then 0
  else
    let exponent := max f.minExponent (r.log2 - f.fractionBits)
    let mantissa := (r.scale 2 (-exponent)).roundHalfEven
    min f.infinityBits ((exponent - f.minExponent).toNat * f.hiddenBit + mantissa)

/-- The bit pattern nearest to a signed ratio. -/
def encode (f : BinaryFormat) (negative : Bool) (r : Ratio) : Nat :=
  f.withSign negative (f.encodeMagnitude r)

/-- The quiet pattern that stands for no number. -/
def nanBits (f : BinaryFormat) : Nat := f.infinityBits + Nat.pow 2 (f.fractionBits - 1)

/-- The bit pattern nearest to a datum of any format. -/
def encodeDatum (f : BinaryFormat) : Datum → Nat
  | .nan => f.nanBits
  | .infinite negative => f.withSign negative f.infinityBits
  | .finite negative mantissa exponent =>
    f.encode negative ((Ratio.ofNat mantissa).scale 2 exponent)

end BinaryFormat

namespace Datum

/-- The magnitude of a finite datum; zero for the others. -/
def magnitude : Datum → Ratio
  | .finite _ mantissa exponent => (Ratio.ofNat mantissa).scale 2 exponent
  | _ => .ofNat 0

/-- The sign of a datum. -/
def isNegative : Datum → Bool
  | .nan => false
  | .infinite negative => negative
  | .finite negative _ _ => negative

/-- A finite datum is a number. -/
def isFinite : Datum → Bool
  | .finite .. => true
  | _ => false

/-- Whether the datum is an integer. -/
def isWhole (d : Datum) : Bool := d.isFinite && d.magnitude.isWhole

/-- The integer that a cast gives: toward zero, held inside `[lo, hi]`, zero for no number. -/
def truncate (lo hi : Int) : Datum → Int
  | .nan => 0
  | .infinite negative => if negative then lo else hi
  | .finite negative mantissa exponent =>
    let whole : Int := ((Ratio.ofNat mantissa).scale 2 exponent).floor
    max lo (min hi (if negative then -whole else whole))

end Datum

end Toolpath.Number
