import Toolpath.Number.Shortest
import Toolpath.Number.Decimal

/-!
# Program words

A word is a letter and a value, such as `G1` or `X10.5`, with the text the value was written as.
The code number of a word comes from that text where the text is a number, so that `01` and `1`
are one code; codes have at most one decimal.
-/

namespace Toolpath

/-- A letter and its value. -/
structure Word where
  letter : Char
  value : Float
  /-- The value as written in the program. -/
  raw : String
  deriving DecidableEq

/-- Whether a character is blank at the edge of a text. -/
def isBlank (c : Char) : Bool :=
  let n := c.toNat
  (9 ≤ n && n ≤ 13) || n == 0x20 || n == 0x85 || n == 0xA0 || n == 0x1680 ||
    (0x2000 ≤ n && n ≤ 0x200A) || n == 0x2028 || n == 0x2029 || n == 0x202F || n == 0x205F ||
    n == 0x3000

/-- A text without the blanks at its edges. -/
def trimBlanks (cs : List Char) : List Char :=
  ((cs.dropWhile isBlank).reverse.dropWhile isBlank).reverse

/-- The text of a code number: rounded to one decimal, and without it where it is zero. -/
def codeText (value : Float) : String :=
  let rounded := Number.roundHalfAway (value * 10.0) / 10.0
  let datum := Number.doubleDatum rounded
  if datum.isWhole then toString (Number.integerOfDouble rounded)
  else Number.fixedText 1 datum

/-- The text of a value: whole numbers below `10 ^ 15` without sign of zero, others in full. -/
def valueText (value : Float) : String :=
  if (Number.doubleDatum value).isWhole ∧ Float.abs value < 1.0e15 then
    toString (Number.integerOfDouble value)
  else Number.plainDouble value

namespace Word

/-- A word whose value has its plain spelling. -/
def ofValue (letter : Char) (value : Float) : Word := ⟨letter.toUpper, value, valueText value⟩

/-- A word that keeps its spelling. -/
def ofText (letter : Char) (value : Float) (raw : String) : Word := ⟨letter.toUpper, value, raw⟩

/-- The finite number the spelling stands for, if it stands for one. -/
def spelled? (w : Word) : Option Float :=
  ((Number.Decimal.ofChars? (trimBlanks w.raw.toList)).map Number.Decimal.toDouble).filter
    Float.isFinite

/-- The number of a code word: its spelling where that is a number, its value otherwise. -/
def codeValue (w : Word) : Float := w.spelled?.getD w.value

/-- The code number of a word as text. -/
def code (w : Word) : String := codeText w.codeValue

/-- The text of a word. -/
def text (w : Word) : String :=
  String.ofList [w.letter] ++ if w.raw.isEmpty then valueText w.value else w.raw

end Word

end Toolpath
