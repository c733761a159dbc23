import Toolpath.Number.Machine

/-!
# Numbers with a fixed count of decimals

The exact value is rounded to the asked places, a half going to the even neighbour, and the sign
of a negative zero is kept.
-/

namespace Toolpath.Number

/-- Put zeros before a text until it has the given width. -/
def padZeros (width : Nat) (text : String) : String :=
  String.ofList (List.replicate (width - text.length) '0') ++ text

/-- The text of `digits / 10 ^ places`. -/
def pointText (places digits : Nat) : String :=
  if places = 0 then toString digits
  else
    let unit := Nat.pow 10 places
    toString (digits / unit) ++ "." ++ padZeros places (toString (digits % unit))

/-- The text of a datum with a fixed count of decimals. -/
def fixedText (places : Nat) : Datum → String
  | .nan => "NaN"
  | .infinite negative => if negative then "-inf" else "inf"
  | .finite negative mantissa exponent =>
    let digits := (((Ratio.ofNat mantissa).scale 2 exponent).scale 10 places).roundHalfEven
    (if negative then "-" else "") ++ pointText places digits

end Toolpath.Number
