import Toolpath.Word
import Toolpath.Vector

/-!
# Program blocks

A block is one line of the program: its number and its words in order. Of several words with one
letter the last counts, except for the code words, which all take effect in turn.
-/

namespace Toolpath

/-- One line of a program. -/
structure Block where
  line : Nat
  words : List Word
  deriving DecidableEq

/-- The lines of a program. -/
abbrev Program := List Block

/-- The coordinates that a block gives; `none` on an axis it does not name. -/
abbrev AxisWords (α : Type) := Vec3 (Option α)

namespace Block

/-- A block of words in their plain spelling. -/
def ofPairs (line : Nat) (pairs : List (Char × Float)) : Block :=
  ⟨line, pairs.map fun (letter, value) => Word.ofValue letter value⟩

/-- The last word with the given letter, asked for in either case. -/
def word? (b : Block) (letter : Char) : Option Word :=
  b.words.reverse.find? (·.letter = letter.toUpper)

/-- The code words in order. -/
def codeWords (b : Block) : List Word := b.words.filter (·.letter = 'G')

/-- The text of a block. -/
def text (b : Block) : String :=
  b.words.foldl (fun t w => t ++ " " ++ w.text) ("N" ++ toString b.line ++ ":")

section Values

variable {α : Type} [Scalar α]

/-- The value of the last word with the given letter. -/
def value? (b : Block) (letter : Char) : Option α :=
  (b.word? letter).map fun w => Scalar.ofProgrammed w.value

/-- The coordinates the block gives. -/
def axisWords (b : Block) : AxisWords α := .ofAxes fun axis => b.value? axis.letter

end Values

end Block

/-- Whether no axis is named. -/
def AxisWords.isEmpty {α : Type} (axes : AxisWords α) : Bool :=
  axes.x.isNone && axes.y.isNone && axes.z.isNone

end Toolpath
