import Toolpath.Block
import Toolpath.Json.Reader
import Toolpath.Json.Number

/-!
# Programs as JSON

A program is an array of blocks; a block has a line number and its words, a word a letter, a value
and, if it is known, the text it was written as.
-/

namespace Toolpath

/-- Read a word. -/
def Word.ofJson? (j : Json) : Option Word := do
  match ← j.fields? ["letter", "value", "raw"] with
  | [some letter, some value, raw] =>
    return {
      letter := ← letter.char?
      value := ← value.double?
      raw := ←
        match raw with
        | none => some ""
        | some raw => raw.text? }
  | _ => none

/-- Read a block. -/
def Block.ofJson? (j : Json) : Option Block := do
  match ← j.fields? ["line_no", "words"] with
  | [some line, some words] =>
    return { line := ← line.count? 32, words := ← (← words.items?).mapM Word.ofJson? }
  | _ => none

namespace Program

/-- Read a program. -/
def ofJson? (j : Json) : Option Program := do (← j.items?).mapM Block.ofJson?

/-- Read a program from text. -/
def ofText? (text : String) : Option Program := (Json.ofText? text).bind ofJson?

end Program

end Toolpath
