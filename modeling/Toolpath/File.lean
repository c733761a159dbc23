/-!
# Files

Paths are texts with slashes. The program reaches files only through `FileAccess`, in whatever
monad it runs: the machine's own files, or a store that is carried along as a value.
-/

namespace Toolpath

/-- Why a file cannot be read or written. -/
inductive FileFault where
  | missing
  | notDirectory
  | isDirectory
  /-- A directory cannot be made where a file is. -/
  | alreadyThere
  | nameTooLong
  /-- No path holds the character zero. -/
  | zeroCharacter
  /-- The content is no text. -/
  | notText
  | other (reason : String)
  deriving DecidableEq

/-- The message for a file fault. -/
def FileFault.message : FileFault → String
  | missing => "No such file or directory (os error 2)"
  | notDirectory => "Not a directory (os error 20)"
  | isDirectory => "Is a directory (os error 21)"
  | alreadyThere => "File exists (os error 17)"
  | nameTooLong => "File name too long (os error 36)"
  | zeroCharacter => "file name contained an unexpected NUL byte"
  | notText => "stream did not contain valid UTF-8"
  | other reason => reason

/-- The content of a file. -/
abbrev FileContent := List UInt8

/-- Access to files. -/
class FileAccess (m : Type → Type) where
  read : String → m (Except FileFault FileContent)
  write : String → FileContent → m (Except FileFault Unit)
  exists? : String → m Bool
  /-- Make a directory and those it lies in. -/
  makeDirectories : String → m (Except FileFault Unit)

/-- The text of a content. -/
def FileContent.text? (content : FileContent) : Except FileFault String :=
  match String.fromUTF8? ⟨content.toArray⟩ with
  | some text => .ok text
  | none => .error .notText

/-- The content of a text. -/
def FileContent.ofText (text : String) : FileContent := text.toUTF8.toList

/-! ## Paths -/

/-- Whether a path starts at the root. -/
def isRooted (path : String) : Bool := path.toList.head? == some '/'

/-- The texts between slashes; there is one more of them than there are slashes. -/
def betweenSlashes : List Char → List (List Char)
  | [] => [[]]
  | c :: rest =>
    if c = '/' then [] :: betweenSlashes rest
    else
      match betweenSlashes rest with
      | [] => [[c]]
      | first :: others => (c :: first) :: others

/-- The steps of a path: all that stands between its slashes. -/
def pathSteps (path : String) : List String := (betweenSlashes path.toList).map String.ofList

/-- The steps of a path that lead somewhere: all but empty ones and single points. -/
def pathParts (path : String) : List String :=
  (pathSteps path).filter fun step => step ≠ "" ∧ step ≠ "."

/-- The name of the file that a path leads to. -/
def fileName? (path : String) : Option String :=
  match (pathParts path).getLast? with
  | none => none
  | some ".." => none
  | some name => some name

/-- What follows the last point of a file name that has something in front of it. -/
def extensionOf? (path : String) : Option String :=
  match fileName? path with
  | none => none
  | some name =>
    let reversed := name.toList.reverse
    let (extension, rest) := reversed.span (· ≠ '.')
    match rest with
    | [] => none
    | [_] => none
    | _ => some (String.ofList extension.reverse)

/-- The path of the directory of a file, or nothing for a file name alone. -/
def parentOf (path : String) : String :=
  let parent := "/".intercalate (pathParts path).dropLast
  if isRooted path then "/" ++ parent else parent

end Toolpath
