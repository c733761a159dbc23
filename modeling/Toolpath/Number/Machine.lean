import Toolpath.Number.Binary

/-!
# Machine numbers

Conversions between the two machine number types and the exact ratios. Every conversion goes
through the datum that the bits stand for and rounds once.
-/

namespace Toolpath.Number

/-- The datum of a single-precision number. -/
def singleDatum (x : Float32) : Datum := BinaryFormat.single.decode x.toBits.toNat

/-- The datum of a double-precision number. -/
def doubleDatum (x : Float) : Datum := BinaryFormat.double.decode x.toBits.toNat

/-- The single-precision number nearest to a datum. -/
def singleOfDatum (d : Datum) : Float32 :=
  Float32.ofBits (UInt32.ofNat (BinaryFormat.single.encodeDatum d))

/-- The double-precision number nearest to a datum. -/
def doubleOfDatum (d : Datum) : Float :=
  Float.ofBits (UInt64.ofNat (BinaryFormat.double.encodeDatum d))

/-- The single-precision number nearest to a double-precision one. -/
def narrow (x : Float) : Float32 := singleOfDatum (doubleDatum x)

/-- The double-precision number equal to a single-precision one. -/
def widen (x : Float32) : Float := doubleOfDatum (singleDatum x)

/-- The single-precision number nearest to an integer. -/
def singleOfInt (n : Int) : Float32 :=
  Float32.ofBits (UInt32.ofNat (BinaryFormat.single.encode (n < 0) (.ofNat n.natAbs)))

/-- The double-precision number nearest to an integer. -/
def doubleOfInt (n : Int) : Float :=
  Float.ofBits (UInt64.ofNat (BinaryFormat.double.encode (n < 0) (.ofNat n.natAbs)))

/-- The double-precision number nearest to a signed ratio. -/
def doubleOfRatio (negative : Bool) (r : Ratio) : Float :=
  Float.ofBits (UInt64.ofNat (BinaryFormat.double.encode negative r))

/-- The nearest whole number, a half going away from zero. -/
def roundHalfAway (x : Float) : Float :=
  match doubleDatum x with
  | .finite negative mantissa exponent =>
    doubleOfRatio negative (.ofNat ((Ratio.ofNat mantissa).scale 2 exponent).roundHalfUp)
  | _ => x

/-- The remainder of a truncated division by a positive whole number, with the sign of `x`. -/
def remainder (x : Float32) (modulus : Nat) : Float32 :=
  match singleDatum x with
  | .finite negative mantissa exponent =>
    let r := (Ratio.ofNat mantissa).scale 2 exponent
    Float32.ofBits (UInt32.ofNat
      (BinaryFormat.single.encode negative ⟨r.num % (modulus * r.den), r.den⟩))
  | _ => singleOfDatum .nan

/-- The greatest count of 32 bits. -/
def greatestCount32 : Nat := 0xFFFFFFFF

/-- The least integer of 64 bits. -/
def leastInt64 : Int := -0x8000000000000000

/-- The greatest integer of 64 bits. -/
def greatestInt64 : Int := 0x7FFFFFFFFFFFFFFF

/-- The whole part of a single-precision number, held inside the 32-bit counts. -/
def countOfSingle (x : Float32) : Nat :=
  ((singleDatum x).truncate 0 greatestCount32).toNat

/-- The whole part of a double-precision number, held inside the 64-bit integers. -/
def integerOfDouble (x : Float) : Int := (doubleDatum x).truncate leastInt64 greatestInt64

end Toolpath.Number
