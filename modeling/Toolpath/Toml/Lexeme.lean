import Toolpath.Toml
import Toolpath.Json.Token

/-!
# TOML lexemes

The smallest parts of TOML text: blanks and comments, keys, strings, numbers, dates. Each reader
takes its part off the front of a text and gives the rest.
-/

namespace Toolpath.Toml

/-! ## Blanks -/

/-- Whether a character is a blank inside a line. -/
def isBlankChar (c : Char) : Bool := c == ' ' || c == '\t'

/-- Leave out leading blanks. -/
def skipBlanks (cs : List Char) : List Char := cs.dropWhile isBlankChar

/-- Whether a character may stand in text outside of escapes: no control character but the tab. -/
def isTextChar (c : Char) : Bool := c == '\t' || (32 ≤ c.toNat && c.toNat ≠ 127)

/-- Leave out the end of a line: a line feed, or a carriage return with one. -/
def newline? : List Char → Option (List Char)
  | '\n' :: rest => some rest
  | '\r' :: '\n' :: rest => some rest
  | _ => none

/-- Leave out a comment, where there is one. -/
def skipComment (cs : List Char) : List Char :=
  match cs with
  | '#' :: rest => rest.dropWhile isTextChar
  | _ => cs

/-- Leave out what may stand behind a statement, up to the end of its line or of the text. -/
def lineEnd? (cs : List Char) : Option (List Char) :=
  match skipComment (skipBlanks cs) with
  | [] => some []
  | rest => newline? rest

/-- Leave out blanks, line ends and comments. -/
def skipLines : Nat → List Char → Option (List Char)
  | 0, _ => none
  | fuel + 1, cs =>
    match skipBlanks cs with
    | '#' :: rest => (newline? (rest.dropWhile isTextChar)).bind (skipLines fuel)
    | '\n' :: rest => skipLines fuel rest
    | '\r' :: rest => (newline? ('\r' :: rest)).bind (skipLines fuel)
    | rest => some rest

/-! ## Strings -/

/-- The character with a code, if there is one. -/
def charOfCode? (n : Nat) : Option Char := if n.isValidChar then some (Char.ofNat n) else none

/-- The character of an escape, behind its backslash. -/
def escape? : List Char → Option (Char × List Char)
  | 'b' :: rest => some (Char.ofNat 8, rest)
  | 't' :: rest => some ('\t', rest)
  | 'n' :: rest => some ('\n', rest)
  | 'f' :: rest => some (Char.ofNat 12, rest)
  | 'r' :: rest => some ('\r', rest)
  | '"' :: rest => some ('"', rest)
  | '\\' :: rest => some ('\\', rest)
  | 'u' :: a :: b :: c :: d :: rest =>
    ((Json.hexNumber? [a, b, c, d]).bind charOfCode?).map fun c => (c, rest)
  | 'U' :: a :: b :: c :: d :: e :: f :: g :: h :: rest =>
    ((Json.hexNumber? [a, b, c, d, e, f, g, h]).bind charOfCode?).map fun c => (c, rest)
  | _ => none

/-- The text of a string on one line up to its closing quote. -/
def basicText? : Nat → List Char → Option (List Char × List Char)
  | 0, _ => none
  | fuel + 1, cs =>
    match cs with
    | '"' :: rest => some ([], rest)
    | '\\' :: rest => do
      let (c, rest) ← escape? rest
      let (text, rest) ← basicText? fuel rest
      return (c :: text, rest)
    | c :: rest =>
      if isTextChar c then (basicText? fuel rest).map fun (text, rest) => (c :: text, rest)
      else none
    | [] => none

/-- The text of a string without escapes up to its closing quote. -/
def literalText? : List Char → Option (List Char × List Char)
  | [] => none
  | c :: rest =>
    if c = '\'' then some ([], rest)
    else if isTextChar c then (literalText? rest).map fun (text, rest) => (c :: text, rest)
    else none

/-- Leave out a line end in front of the text of a string of lines. -/
def skipFirstNewline (cs : List Char) : List Char := (newline? cs).getD cs

/-- Leave out blanks and line ends. -/
def skipBlankLines (cs : List Char) : List Char :=
  match cs with
  | [] => []
  | '\r' :: '\n' :: rest => skipBlankLines rest
  | c :: rest => if isBlankChar c || c == '\n' then skipBlankLines rest else cs

/-- The text of a string of lines up to its three closing quotes, of which up to two more may be
text. Behind a backslash at the end of a line all blanks and line ends are left out. -/
def linesText? (quote : Char) (escapes : Bool) : Nat → List Char → Option (List Char × List Char)
  | 0, _ => none
  | fuel + 1, cs =>
    match cs with
    | [] => none
    | c :: rest =>
      if c = quote then
        let quotes := cs.takeWhile (· == quote)
        if quotes.length < 3 then
          (linesText? quote escapes fuel rest).map fun (text, rest) => (c :: text, rest)
        else
          let kept := min 2 (quotes.length - 3)
          some (List.replicate kept quote, cs.drop (kept + 3))
      else if c = '\\' ∧ escapes = true then
        match newline? (skipBlanks rest) with
        | some rest => linesText? quote escapes fuel (skipBlankLines rest)
        | none => do
          let (c, rest) ← escape? rest
          let (text, rest) ← linesText? quote escapes fuel rest
          return (c :: text, rest)
      else
        match newline? cs with
        | some rest =>
          (linesText? quote escapes fuel rest).map fun (text, rest) => ('\n' :: text, rest)
        | none =>
          if isTextChar c then
            (linesText? quote escapes fuel rest).map fun (text, rest) => (c :: text, rest)
          else none

/-- A string of any kind, and the rest. -/
def string? (cs : List Char) : Option (String × List Char) :=
  let found :=
    match cs with
    | '"' :: '"' :: '"' :: rest => linesText? '"' true (rest.length + 1) (skipFirstNewline rest)
    | '"' :: rest => basicText? (rest.length + 1) rest
    | '\'' :: '\'' :: '\'' :: rest =>
      linesText? '\'' false (rest.length + 1) (skipFirstNewline rest)
    | '\'' :: rest => literalText? rest
    | _ => none
  found.map fun (text, rest) => (String.ofList text, rest)

/-! ## Keys -/

/-- Whether a character may stand in a key without quotes. -/
def isKeyChar (c : Char) : Bool := c.isAlphanum || c == '_' || c == '-'

/-- One key of a path, and the rest. -/
def key? (cs : List Char) : Option (String × List Char) :=
  let found :=
    match cs with
    | '"' :: rest => basicText? (rest.length + 1) rest
    | '\'' :: rest => literalText? rest
    | _ =>
      let (name, rest) := cs.span isKeyChar
      if name.isEmpty then none else some (name, rest)
  found.map fun (text, rest) => (String.ofList text, rest)

/-- Keys joined by points, with blanks around them, and the rest. -/
def pathWithin? : Nat → List Char → Option (List String × List Char)
  | 0, _ => none
  | fuel + 1, cs => do
    let (key, rest) ← key? (skipBlanks cs)
    match skipBlanks rest with
    | '.' :: rest =>
      let (path, rest) ← pathWithin? fuel rest
      return (key :: path, rest)
    | rest => return ([key], rest)

/-- No path has as many keys as this, and no value as many levels of nesting. -/
def depthLimit : Nat := 80

/-- A path of keys, and the rest. -/
def path? (cs : List Char) : Option (List String × List Char) := pathWithin? (depthLimit - 1) cs

/-! ## Numbers -/

/-- Digits of a class behind a first one, with single underscores between them; the digits alone,
and the rest. -/
def moreDigits? (isDigit : Char → Bool) : List Char → Option (List Char × List Char)
  | [] => some ([], [])
  | '_' :: [] => none
  | '_' :: c :: rest =>
    if isDigit c then (moreDigits? isDigit rest).map fun (digits, rest) => (c :: digits, rest)
    else none
  | c :: rest =>
    if isDigit c then (moreDigits? isDigit rest).map fun (digits, rest) => (c :: digits, rest)
    else some ([], c :: rest)

/-- Digits of a class, with single underscores between them; the digits alone, and the rest. -/
def groupedDigits? (isDigit : Char → Bool) : List Char → Option (List Char × List Char)
  | [] => none
  | c :: rest =>
    if isDigit c then (moreDigits? isDigit rest).map fun (digits, rest) => (c :: digits, rest)
    else none

/-- The digits of a whole number: a single zero, or digits without a zero in front. -/
def wholeDigits? : List Char → Option (List Char × List Char)
  | '0' :: rest => some (['0'], rest)
  | cs => groupedDigits? Char.isDigit cs

/-- Whether a character is a digit below a base up to ten. -/
def isDigitBelow (base : Nat) (c : Char) : Bool := c.isDigit && c.toNat - 48 < base

/-- The value of digits in a base. -/
def digitsInBase (base : Nat) (digits : List Char) : Nat :=
  digits.foldl (fun n c => base * n + (Json.hexValue? c).getD 0) 0

/-- An integer inside 64 bits. -/
def integer? (n : Int) : Option Toml :=
  if Number.leastInt64 ≤ n ∧ n ≤ Number.greatestInt64 then some (.integer n) else none

/-- An integer in a base with a mark. -/
def basedInteger? (base : Nat) (isDigit : Char → Bool) (cs : List Char) :
    Option (Toml × List Char) := do
  let (digits, rest) ← groupedDigits? isDigit cs
  let value ← integer? (digitsInBase base digits)
  return (value, rest)

/-- A number past the largest finite one has no value, but only above zero. -/
def realValue? (d : Number.Decimal) : Option Toml :=
  let x := d.toDouble
  if x.isInf ∧ ¬ d.negative then none else some (.real x)

/-- The exponent of a number, where there is one. -/
def exponent? (cs : List Char) : Option (Option Int × List Char) :=
  match cs with
  | [] => some (none, [])
  | c :: rest =>
    if c = 'e' ∨ c = 'E' then do
      let (negative, rest) := Number.spanSign rest
      let (digits, rest) ← groupedDigits? Char.isDigit rest
      let size : Int := Number.digitsValue digits
      return (some (if negative then -size else size), rest)
    else some (none, cs)

/-- The digits behind the point, where there is one. -/
def fraction? (cs : List Char) : Option (List Char × List Char) :=
  match cs with
  | '.' :: rest => groupedDigits? Char.isDigit rest
  | _ => some ([], cs)

/-- A number in decimal digits, or one of the names of no number and of infinity. -/
def decimal? (cs : List Char) : Option (Toml × List Char) :=
  let (negative, rest) := Number.spanSign cs
  match rest with
  | 'i' :: 'n' :: 'f' :: rest =>
    some (.real (Number.doubleOfDatum (.infinite negative)), rest)
  | 'n' :: 'a' :: 'n' :: rest => some (.real (Number.doubleOfDatum .nan), rest)
  | _ => do
    let (whole, rest) ← wholeDigits? rest
    let (fraction, rest) ← fraction? rest
    let (exponent, rest) ← exponent? rest
    if fraction.isEmpty ∧ exponent.isNone then
      let n : Int := Number.digitsValue whole
      let value ← integer? (if negative then -n else n)
      return (value, rest)
    else
      let value ← realValue?
        ⟨negative, Number.digitsValue (whole ++ fraction), exponent.getD 0 - fraction.length⟩
      return (value, rest)

/-- A number, and the rest. -/
def number? : List Char → Option (Toml × List Char)
  | '0' :: 'x' :: rest => basedInteger? 16 (fun c => (Json.hexValue? c).isSome) rest
  | '0' :: 'o' :: rest => basedInteger? 8 (isDigitBelow 8) rest
  | '0' :: 'b' :: rest => basedInteger? 2 (isDigitBelow 2) rest
  | cs => decimal? cs

/-! ## Dates and times -/

/-- A number of two digits inside bounds, and the rest. -/
def twoDigits? (lo hi : Nat) : List Char → Option (Nat × List Char)
  | a :: b :: rest =>
    let n := Number.digitsValue [a, b]
    if a.isDigit ∧ b.isDigit ∧ lo ≤ n ∧ n ≤ hi then some (n, rest) else none
  | _ => none

/-- The days of a month. -/
def daysOfMonth (year month : Nat) : Nat :=
  if month = 2 then
    if year % 4 = 0 ∧ (year % 100 ≠ 0 ∨ year % 400 = 0) then 29 else 28
  else if month = 4 ∨ month = 6 ∨ month = 9 ∨ month = 11 then 30
  else 31

/-- Leave out a date. -/
def date? : List Char → Option (List Char)
  | a :: b :: c :: d :: '-' :: rest => do
    if [a, b, c, d].all Char.isDigit then
      let (month, rest) ← twoDigits? 1 12 rest
      match rest with
      | '-' :: rest =>
        let (_, rest) ← twoDigits? 1 (daysOfMonth (Number.digitsValue [a, b, c, d]) month) rest
        return rest
      | _ => none
    else none
  | _ => none

/-- Leave out a time of day. -/
def timeOfDay? (cs : List Char) : Option (List Char) := do
  let (_, rest) ← twoDigits? 0 23 cs
  match rest with
  | ':' :: rest =>
    let (_, rest) ← twoDigits? 0 59 rest
    match rest with
    | ':' :: rest =>
      let (_, rest) ← twoDigits? 0 60 rest
      match rest with
      | '.' :: rest =>
        let (digits, rest) := Number.spanDigits rest
        if digits.isEmpty then none else return rest
      | _ => return rest
    | _ => none
  | _ => none

/-- Leave out the distance from the world's time, where there is one. -/
def timeOffset? (cs : List Char) : Option (List Char) :=
  match cs with
  | [] => some []
  | c :: rest =>
    if c = 'Z' ∨ c = 'z' then some rest
    else if c = '+' ∨ c = '-' then do
      let (_, rest) ← twoDigits? 0 23 rest
      match rest with
      | ':' :: rest =>
        let (_, rest) ← twoDigits? 0 59 rest
        return rest
      | _ => none
    else some cs

/-- Leave out a date, a time of day, or both. -/
def moment? (cs : List Char) : Option (List Char) :=
  match date? cs with
  | none => timeOfDay? cs
  | some rest =>
    match rest with
    | c :: more =>
      if c = 'T' ∨ c = 't' ∨ c = ' ' then
        match timeOfDay? more with
        | some rest => timeOffset? rest
        | none => some rest
      else some rest
    | [] => some []

end Toolpath.Toml
