import Toolpath.Program.Json
import Toolpath.Simulation.Json
import Toolpath.File

/-!
# Program and vertex files

Programs are read from JSON files. A vertex buffer is written as raw numbers to a file whose name
ends in `.bin`, in whatever case, and as JSON to any other.
-/

namespace Toolpath

/-- Why a file of the program's own data cannot be used. -/
inductive DataError where
  | file (fault : FileFault)
  | json
  deriving DecidableEq

/-- The message with the causes behind it. -/
def DataError.chain : DataError → String
  | file fault => "I/O error: " ++ fault.message ++ ": " ++ fault.message
  | json => "JSON error"

/-- Read a program from the content of a file. -/
def Program.ofContent (content : Except FileFault FileContent) : Except DataError Program :=
  match content.bind FileContent.text? with
  | .error fault => .error (.file fault)
  | .ok text =>
    match Program.ofText? text with
    | some program => .ok program
    | none => .error .json

/-- Whether a vertex file holds raw numbers. -/
def isRawFile (path : String) : Bool :=
  match extensionOf? path with
  | some extension => extension.map Char.toLower == "bin"
  | none => false

/-- The content of a vertex file. -/
def VertexBuffer.content (b : VertexBuffer Float32) (path : String) : FileContent :=
  if isRawFile path then b.bytes else FileContent.ofText b.toJson.toText

section Access

variable {m : Type → Type} [Monad m] [FileAccess m]

/-- Load a program from a file. -/
def Program.load (path : String) : m (Except DataError Program) := do
  return Program.ofContent (← FileAccess.read path)

/-- Write a vertex buffer to a file. -/
def VertexBuffer.save (b : VertexBuffer Float32) (path : String) : m (Except DataError Unit) := do
  match ← FileAccess.write path (b.content path) with
  | .ok () => return .ok ()
  | .error fault => return .error (.file fault)

end Access

end Toolpath
