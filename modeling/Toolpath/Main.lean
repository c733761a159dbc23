import Toolpath.CommandLine.Session

/-!
# The program

The outer layer: files and streams of the machine, around a session on the command line.
-/

namespace Toolpath.CommandLine

/-- The fault that an input or output error stands for. -/
def faultOfError : IO.Error → FileFault
  | .noFileOrDirectory .. => .missing
  | .alreadyExists .. => .alreadyThere
  | .inappropriateType _ code reason =>
    if code = 20 then .notDirectory else if code = 21 then .isDirectory else .other reason
  | .invalidArgument _ code reason => if code = 36 then .nameTooLong else .other reason
  | e => .other (toString e)

/-- Run an action on files. -/
def attempt {β : Type} (action : IO β) : IO (Except FileFault β) := do
  match ← action.toBaseIO with
  | .ok value => return .ok value
  | .error e => return .error (faultOfError e)

instance : FileAccess IO where
  read path := attempt do return (← IO.FS.readBinFile path).toList
  write path content := attempt (IO.FS.writeBinFile path ⟨content.toArray⟩)
  exists? path := do
    match ← (IO.FS.Handle.mk path .read).toBaseIO with
    | .ok _ => return true
    | .error _ => return false
  makeDirectories path := attempt (IO.FS.createDirAll path)

/-- The user's own settings file. -/
def userFile : IO String := do
  match ← IO.getEnv "XDG_CONFIG_HOME" with
  | some directory => return directory ++ "/pathkit/planner.toml"
  | none => return (← IO.getEnv "HOME").getD "" ++ "/.config/pathkit/planner.toml"

end Toolpath.CommandLine

/-- Run a session on the machine's files. -/
def main (arguments : List String) : IO UInt32 := do
  let outcome ← Toolpath.CommandLine.run arguments (← Toolpath.CommandLine.userFile)
  (← IO.getStderr).putStr outcome.errors
  (← IO.getStdout).putStr outcome.output
  return outcome.exitCode.toUInt32
