import Toolpath.Json
import Toolpath.Number.Decimal

/-!
# JSON tokens

The lexer cuts a text into brackets, marks, names, numbers and strings, without the blanks
between them. A string escape may be half of a surrogate pair; two halves in a row make one
character.
-/

namespace Toolpath.Json

/-- A token of JSON text. -/
inductive Token where
  | openArray
  | closeArray
  | openObject
  | closeObject
  | comma
  | colon
  | null
  | boolean (b : Bool)
  | number (text : String)
  /-- A string; `none` when it holds an unpaired surrogate. -/
  | string (text : Option String)
  deriving DecidableEq

/-- Whether a character may stand between tokens. -/
def isSpace (c : Char) : Bool := c == ' ' || c == '\n' || c == '\t' || c == '\r'

/-! ## Strings -/

/-- One element of a string: a character, or a unit of sixteen bits from an escape. -/
inductive StringUnit where
  | char (c : Char)
  | unit (n : Nat)

/-- The value of a hexadecimal digit. -/
def hexValue? (c : Char) : Option Nat :=
  let n := c.toNat
  if '0' ≤ c ∧ c ≤ '9' then some (n - 48)
  else if 'a' ≤ c ∧ c ≤ 'f' then some (n - 87)
  else if 'A' ≤ c ∧ c ≤ 'F' then some (n - 55)
  else none

/-- The number written by hexadecimal digits. -/
def hexNumber? (cs : List Char) : Option Nat :=
  cs.foldl (fun n? c => n?.bind fun n => (hexValue? c).map (16 * n + ·)) (some 0)

/-- The character of a short escape. -/
def shortEscape? : Char → Option Char
  | '"' => some '"'
  | '\\' => some '\\'
  | '/' => some '/'
  | 'b' => some (Char.ofNat 8)
  | 'f' => some (Char.ofNat 12)
  | 'n' => some '\n'
  | 'r' => some '\r'
  | 't' => some '\t'
  | _ => none

/-- The elements of a string up to its closing quote, and the rest. -/
def stringUnits? : List Char → Option (List StringUnit × List Char)
  | [] => none
  | '"' :: rest => some ([], rest)
  | '\\' :: 'u' :: a :: b :: c :: d :: rest =>
    match hexNumber? [a, b, c, d], stringUnits? rest with
    | some n, some (units, rest) => some (.unit n :: units, rest)
    | _, _ => none
  | '\\' :: c :: rest =>
    match shortEscape? c, stringUnits? rest with
    | some c, some (units, rest) => some (.char c :: units, rest)
    | _, _ => none
  | c :: rest =>
    if c = '\\' ∨ c.toNat < 32 then none
    else
      match stringUnits? rest with
      | some (units, rest) => some (.char c :: units, rest)
      | none => none

/-- Whether a unit is the first half of a pair. -/
def isHighHalf (n : Nat) : Bool := 0xD800 ≤ n && n < 0xDC00

/-- Whether a unit is the second half of a pair. -/
def isLowHalf (n : Nat) : Bool := 0xDC00 ≤ n && n < 0xE000

/-- The characters of string elements, unless a half stands alone. -/
def joinUnits? : List StringUnit → Option (List Char)
  | [] => some []
  | .char c :: rest => (joinUnits? rest).map (c :: ·)
  | .unit high :: .unit low :: rest =>
    if isHighHalf high ∧ isLowHalf low then
      (joinUnits? rest).map
        (Char.ofNat (0x10000 + (high - 0xD800) * 0x400 + (low - 0xDC00)) :: ·)
    else if isHighHalf high ∨ isLowHalf high then none
    else (joinUnits? (.unit low :: rest)).map (Char.ofNat high :: ·)
  | .unit n :: rest =>
    if isHighHalf n ∨ isLowHalf n then none else (joinUnits? rest).map (Char.ofNat n :: ·)

/-! ## Numbers -/

/-- The digits before the point: no zero in front of others. -/
def wholeDigits? (cs : List Char) : Option (List Char × List Char) :=
  let (digits, rest) := Number.spanDigits cs
  match digits with
  | [] => none
  | '0' :: _ :: _ => none
  | _ => some (digits, rest)

/-- The point with its digits, where there is one. -/
def fractionPart? (cs : List Char) : Option (List Char × List Char) :=
  match cs with
  | '.' :: rest =>
    let (digits, rest) := Number.spanDigits rest
    if digits.isEmpty then none else some ('.' :: digits, rest)
  | _ => some ([], cs)

/-- The exponent with its mark, where there is one. -/
def exponentPart? (cs : List Char) : Option (List Char × List Char) :=
  match cs with
  | [] => some ([], [])
  | c :: rest =>
    if c = 'e' ∨ c = 'E' then
      let (sign, rest) :=
        match rest with
        | '-' :: rest => (['-'], rest)
        | '+' :: rest => (['+'], rest)
        | _ => ([], rest)
      let (digits, rest) := Number.spanDigits rest
      if digits.isEmpty then none else some (c :: sign ++ digits, rest)
    else some ([], cs)

/-- A number at the start of a text, and the rest. -/
def numberText? (cs : List Char) : Option (List Char × List Char) := do
  let (sign, rest) :=
    match cs with
    | '-' :: rest => (['-'], rest)
    | _ => ([], cs)
  let (whole, rest) ← wholeDigits? rest
  let (fraction, rest) ← fractionPart? rest
  let (exponent, rest) ← exponentPart? rest
  return (sign ++ whole ++ fraction ++ exponent, rest)

/-! ## Tokens -/

/-- One token at the start of a text that begins with none of the blanks, and the rest. -/
def token? : List Char → Option (Token × List Char)
  | '[' :: rest => some (.openArray, rest)
  | ']' :: rest => some (.closeArray, rest)
  | '\x7b' :: rest => some (.openObject, rest)
  | '\x7d' :: rest => some (.closeObject, rest)
  | ',' :: rest => some (.comma, rest)
  | ':' :: rest => some (.colon, rest)
  | 'n' :: 'u' :: 'l' :: 'l' :: rest => some (.null, rest)
  | 't' :: 'r' :: 'u' :: 'e' :: rest => some (.boolean true, rest)
  | 'f' :: 'a' :: 'l' :: 's' :: 'e' :: rest => some (.boolean false, rest)
  | '"' :: rest =>
    (stringUnits? rest).map fun (units, rest) =>
      (.string ((joinUnits? units).map String.ofList), rest)
  | cs => (numberText? cs).map fun (text, rest) => (.number (String.ofList text), rest)

/-- The tokens of a text, given at least as much fuel as it has characters. -/
def tokensWithin? : Nat → List Char → Option (List Token)
  | _, [] => some []
  | 0, _ :: _ => none
  | fuel + 1, c :: rest =>
    if isSpace c then tokensWithin? fuel rest
    else
      match token? (c :: rest) with
      | none => none
      | some (token, rest) => (tokensWithin? fuel rest).map (token :: ·)

/-- The tokens of a text. -/
def tokens? (cs : List Char) : Option (List Token) := tokensWithin? cs.length cs

end Toolpath.Json
