import Toolpath.Number.Shortest

/-!
# JSON values

A value keeps each number as the text it is written with, so that reading and printing change
nothing, and the members of an object in their order, repeated names included. A string that holds
half of a surrogate pair is sound text but stands for nothing; `malformed` keeps its place.
-/

namespace Toolpath

/-- A JSON value. -/
inductive Json where
  | null
  | boolean (b : Bool)
  | number (text : String)
  | string (text : String)
  | malformed
  | array (items : List Json)
  | object (members : List (String × Json))

namespace Json

/-- The style of single-precision numbers. -/
def singleStyle : Number.DecimalStyle :=
  { tie := .even, positional := some (-5, 14), wholeMark := ".0", nan := "null"
    infinity := ("null", "null") }

/-- The style of double-precision numbers. -/
def doubleStyle : Number.DecimalStyle :=
  { tie := .even, positional := some (-4, 17), wholeMark := ".0", nan := "null"
    infinity := ("null", "null") }

/-- The value of a count. -/
def ofNat (n : Nat) : Json := number (toString n)

/-- The value of a single-precision number, with the given texts of the finite ones; one that is not
finite is null. -/
def ofSingleBy (text : Float32 → String) (x : Float32) : Json :=
  if (Number.singleDatum x).isFinite then number (text x) else null

/-- The shortest text of a single-precision number. -/
def singleText (x : Float32) : String := singleStyle.render .single (Number.singleDatum x)

/-- The value of a single-precision number. -/
def ofSingle (x : Float32) : Json := ofSingleBy singleText x

/-- The value of a double-precision number; one that is not finite is null. -/
def ofDouble (x : Float) : Json :=
  let datum := Number.doubleDatum x
  if datum.isFinite then number (doubleStyle.render .double datum) else null

end Json

end Toolpath
