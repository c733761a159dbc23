import Toolpath.Number.Machine

/-!
# Reading decimal text

A decimal is a sign, a run of digits and a power of ten. `Decimal.ofChars?` reads the free
form (a sign of either kind, a point with digits on one side, an exponent), and `toDouble` rounds
the exact value once.
-/

namespace Toolpath.Number

/-- The signed number `digits * 10 ^ exponent`. -/
structure Decimal where
  negative : Bool
  digits : Nat
  exponent : Int
  deriving DecidableEq

/-- The number written by a run of decimal digits. -/
def digitsValue (cs : List Char) : Nat := cs.foldl (fun n c => 10 * n + (c.toNat - '0'.toNat)) 0

/-- Split a text after its leading decimal digits. -/
def spanDigits (cs : List Char) : List Char × List Char := cs.span Char.isDigit

/-- Read an optional sign: whether it is a minus, and the rest. -/
def spanSign : List Char → Bool × List Char
  | '-' :: rest => (true, rest)
  | '+' :: rest => (false, rest)
  | cs => (false, cs)

/-- Read an exponent that takes all of a text; no text is the exponent zero. -/
def exponentOfChars? : List Char → Option Int
  | [] => some 0
  | c :: rest =>
    if c = 'e' ∨ c = 'E' then
      let (negative, rest) := spanSign rest
      let (digits, rest) := spanDigits rest
      if digits.isEmpty ∨ ¬ rest.isEmpty then none
      else
        let exponent : Int := digitsValue digits
        some (if negative then -exponent else exponent)
    else none

namespace Decimal

/-- Read a decimal that takes all of a text. -/
def ofChars? (cs : List Char) : Option Decimal :=
  let (negative, cs) := spanSign cs
  let (whole, cs) := spanDigits cs
  let (fraction, cs) :=
    match cs with
    | '.' :: rest => spanDigits rest
    | _ => ([], cs)
  if whole.isEmpty ∧ fraction.isEmpty then none
  else (exponentOfChars? cs).map fun exponent =>
    ⟨negative, digitsValue (whole ++ fraction), exponent - fraction.length⟩

/-- The nearest double-precision number. A decimal far outside the format's range is sorted out
by its size alone, so that no huge power of ten is ever formed. -/
def toDouble (d : Decimal) : Float :=
  let size := d.exponent + (Nat.toDigits 10 d.digits).length
  if d.digits = 0 ∨ size < -400 then doubleOfRatio d.negative (.ofNat 0)
  else if 400 < size then doubleOfDatum (.infinite d.negative)
  else doubleOfRatio d.negative ((Ratio.ofNat d.digits).scale 10 d.exponent)

end Decimal

end Toolpath.Number
