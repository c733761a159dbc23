import Toolpath.Json.Token

/-!
# Values of JSON numbers

A number without point and exponent is an integer as long as it fits in 64 bits, with a sign or
without; a negative zero is not. Any other number is a double-precision one. Its digits are
gathered while they fit in 64 bits, and the power of ten is applied by one product or quotient
with a table of exact powers; so the value may miss the nearest one in the last place. A number
past the largest finite one has no value.
-/

namespace Toolpath.Json

/-- The value of a number: an integer, or a double-precision number. -/
inductive NumberValue where
  | integer (n : Int)
  | real (x : Float)

/-- The parts of a number's text. -/
structure NumberParts where
  negative : Bool
  whole : List Char
  fraction : List Char
  /-- The exponent, its sign first. -/
  exponent : Option (Bool × List Char)

/-- The parts of a number's text. -/
def numberParts (text : String) : NumberParts :=
  let (negative, rest) := Number.spanSign text.toList
  let (whole, rest) := Number.spanDigits rest
  let (fraction, rest) :=
    match rest with
    | '.' :: rest => Number.spanDigits rest
    | _ => ([], rest)
  let exponent :=
    match rest with
    | [] => none
    | _ :: rest =>
      let (negative, rest) := Number.spanSign rest
      some (negative, (Number.spanDigits rest).1)
  ⟨negative, whole, fraction, exponent⟩

/-- The count of patterns of 64 bits. -/
def wordLimit : Nat := 0x10000000000000000

/-- Gather leading digits while the number they make fits in 64 bits: the number, and the digits
that are left. -/
def gatherDigits (n : Nat) : List Char → Nat × List Char
  | [] => (n, [])
  | c :: rest =>
    let next := 10 * n + (c.toNat - 48)
    if next < wordLimit then gatherDigits next rest else (n, c :: rest)

/-- The exact power of ten in the table, nearest in double precision. -/
def tablePower (k : Nat) : Float := Number.doubleOfRatio false (.ofNat (Nat.pow 10 k))

/-- A number times `10 ^ exponent`, in steps of at most `10 ^ 308`. -/
def scaleByTable : Nat → Float → Int → Option Float
  | 0, _, _ => none
  | fuel + 1, x, exponent =>
    if exponent.natAbs ≤ 308 then
      let power := tablePower exponent.natAbs
      if 0 ≤ exponent then
        let x := x * power
        if x.isInf then none else some x
      else some (x / power)
    else if x == 0.0 then some x
    else if 0 ≤ exponent then none
    else scaleByTable fuel (x / tablePower 308) (exponent + 308)

/-- The signed number `significand * 10 ^ exponent`. -/
def assemble (negative : Bool) (significand : Nat) (exponent : Int) : Option NumberValue :=
  (scaleByTable 8 (Number.doubleOfInt significand) exponent).map fun x =>
    .real (if negative then -x else x)

/-- The greatest exponent that is counted. -/
def exponentBound : Nat := 0x7FFFFFFF

/-- The value of the gathered digits with the written exponent; an exponent past its bound is
taken for infinite. -/
def withExponent (negative : Bool) (significand : Nat) (start : Int) (exponent : Bool × List Char) :
    Option NumberValue :=
  let size := Number.digitsValue exponent.2
  if exponentBound < size then
    if significand ≠ 0 ∧ exponent.1 = false then none
    else some (.real (if negative then -0.0 else 0.0))
  else
    let shift : Int := if exponent.1 then -size else size
    assemble negative significand (max (-exponentBound - 1) (min exponentBound (start + shift)))

/-- The value of a number's parts. -/
def NumberParts.value? (p : NumberParts) : Option NumberValue :=
  let (significand, dropped) := gatherDigits 0 p.whole
  if p.fraction.isEmpty ∧ p.exponent.isNone ∧ dropped.isEmpty then
    if ¬ p.negative then some (.integer significand)
    else if 0 < significand ∧ Number.leastInt64 ≤ -significand then
      some (.integer (-(significand : Int)))
    else some (.real (-(Number.doubleOfInt significand)))
  else
    let (significand, left) := gatherDigits significand p.fraction
    let start : Int := dropped.length - (p.fraction.length - left.length : Nat)
    match p.exponent with
    | none => assemble p.negative significand start
    | some exponent => withExponent p.negative significand start exponent

/-- The value of a number's text. -/
def numberValue? (text : String) : Option NumberValue := (numberParts text).value?

/-! ## Single-precision numbers -/

/-- The single-precision number of a number's text; an integer is rounded once. -/
def singleOfText? (text : String) : Option Float32 :=
  match numberValue? text with
  | some (.integer n) => some (Number.singleOfInt n)
  | some (.real x) => some (Number.narrow x)
  | none => none

/-- How single-precision numbers are kept: the text of a finite one, and the number of a text. -/
structure SingleText where
  print : Float32 → String
  read? : String → Option Float32

/-- The shortest text, read by its value. -/
def SingleText.shortest : SingleText := ⟨singleText, singleOfText?⟩

/-! ## Members of records -/

/-- The integer a value stands for, inside bounds. -/
def integerIn? (lo hi : Int) : Json → Option Int
  | number text =>
    match numberValue? text with
    | some (.integer n) => if lo ≤ n ∧ n ≤ hi then some n else none
    | _ => none
  | _ => none

/-- A count below `2 ^ bits`. -/
def count? (bits : Nat) (j : Json) : Option Nat :=
  (j.integerIn? 0 (Nat.pow 2 bits - 1)).map Int.toNat

/-- The double-precision number a value stands for. -/
def double? : Json → Option Float
  | number text =>
    match numberValue? text with
    | some (.integer n) => some (Number.doubleOfInt n)
    | some (.real x) => some x
    | none => none
  | _ => none

/-- The single-precision number a value stands for, with the given reader of texts. -/
def singleBy? (read? : String → Option Float32) : Json → Option Float32
  | number text => read? text
  | _ => none

/-- The single-precision number a value stands for. -/
def single? : Json → Option Float32 := singleBy? singleOfText?

/-- The text a value stands for. -/
def text? : Json → Option String
  | string text => some text
  | _ => none

/-- The character that is all of a text. -/
def char? : Json → Option Char
  | string text =>
    match text.toList with
    | [c] => some c
    | _ => none
  | _ => none

/-- The items of an array. -/
def items? : Json → Option (List Json)
  | array items => some items
  | _ => none

/-- The last member with a name. -/
def member? (name : String) : Json → Option Json
  | object members => (members.reverse.find? (·.1 = name)).map (·.2)
  | _ => none

/-- The fields of a record, in the order of their names. A record is an object, with each name at
most once and other members passed over, or an array of its first fields. -/
def fields? (names : List String) : Json → Option (List (Option Json))
  | object members =>
    let known := members.map (·.1) |>.filter (names.contains ·)
    if known.eraseDups.length = known.length then some (names.map fun name => members.lookup name)
    else none
  | array items =>
    if items.length ≤ names.length then
      some (items.map some ++ List.replicate (names.length - items.length) none)
    else none
  | _ => none

end Toolpath.Json
