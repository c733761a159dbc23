import Toolpath.CommandLine.Arguments
import Toolpath.Settings.File
import Toolpath.Program.File
import Toolpath.Report

/-!
# A session on the command line

A session loads the settings, then the program, simulates it, reports the problems and the summary
and writes the vertices where it is asked to. The settings come from the file that is named, or
from the user's own, or are the defaults.
-/

namespace Toolpath.CommandLine

/-- What a session writes and how it ends. -/
structure Outcome where
  exitCode : UInt8
  output : String
  errors : String

/-- The end of a session that cannot go on. -/
def Outcome.failed (output errors reason : String) : Outcome :=
  ⟨1, output, errors ++ "Error: " ++ reason ++ "\n"⟩

/-- The end of a session whose plan met bounds that are not in order. -/
def Outcome.broken : Outcome := ⟨101, "", "clamp bounds are not in order\n"⟩

/-- The name and version of the program. -/
def versionText : String := "pathkit 0.4.0"

/-- The shortest account of how to call the program. -/
def usageText : String := "Usage: pathkit [OPTIONS] <INPUT>"

/-- How to call the program. -/
def helpText : String :=
  "\n".intercalate [
    "Plan and discretize a tokenized G-Code program",
    "",
    usageText,
    "",
    "Arguments:",
    "  <INPUT>  Tokenized program (JSON array of command lines)",
    "",
    "Options:",
    "  -c, --config <CONFIG>  Planner config file (TOML or JSON); defaults to the user config",
    "      --strict           Report unsupported and unknown G-Codes",
    "      --y-up             Emit vertices for a Y-up renderer",
    "  -o, --output <OUTPUT>  Write the vertex buffer here (.bin for raw floats, otherwise JSON)",
    "      --output-format <OUTPUT_FORMAT>",
    "                         Output format for the report: text or json [default: text]",
    "      --log-disable      Suppress all logging",
    "  -h, --help             Print help",
    "  -V, --version          Print version"]

/-- The end of a session on a command line that is not understood. -/
def Outcome.misuse : Outcome := ⟨2, "", usageText ++ "\n"⟩

/-- Settings with what the command line changes in them. -/
def Options.applyTo (o : Options) (s : Settings Float32) : Settings Float32 :=
  let s := if o.strict then { s with strictness := .strict } else s
  if o.yUp then { s with display := { s.display with axisConvention := .yUp } } else s

/-- The report on a simulation in the format that is asked for. -/
def Options.report (o : Options) (s : Settings Float32) (summary : Summary Float32) : String :=
  match o.format with
  | some .json => summary.toJson.toPrettyText ++ "\n"
  | _ => summary.report s.display ++ "\n"

/-- One line per problem. -/
def problemLines (problems : List (Problem Float32)) : String :=
  String.join (problems.map fun problem => problem.message ++ "\n")

section Session

variable {m : Type → Type} [Monad m] [FileAccess m]

/-- Load the settings of a session. -/
def loadSettings (o : Options) (userFile : String) : m (Except String (Settings Float32)) := do
  match o.config with
  | some path =>
    match ← Settings.load path with
    | .ok s => return .ok (o.applyTo s)
    | .error e => return .error ("loading config " ++ path ++ ": " ++ e.chain)
  | none =>
    match ← Settings.loadOrDefault userFile with
    | .ok s => return .ok (o.applyTo s)
    | .error e => return .error ("loading user config: " ++ e.chain)

/-- Write the vertices of a simulation where they are asked for, and end the session. -/
def finish (o : Options) (s : Settings Float32) (result : Simulation Float32) : m Outcome := do
  let errors := problemLines result.problems
  let output := o.report s result.summary
  match o.output with
  | none => return ⟨0, output, errors⟩
  | some path =>
    match ← (VertexBuffer.ofTrack result.track s.display.axisConvention).save path with
    | .ok () => return ⟨0, output, errors⟩
    | .error e => return .failed output errors ("writing vertices to " ++ path ++ ": " ++ e.chain)

/-- Run a session with understood arguments. -/
def runOptions (o : Options) (userFile : String) : m Outcome := do
  match ← loadSettings o userFile with
  | .error reason => return .failed "" "" reason
  | .ok s =>
    let input := o.input.getD ""
    match ← Program.load input with
    | .error e => return .failed "" "" ("reading program " ++ input ++ ": " ++ e.chain)
    | .ok program =>
      match simulate s program with
      | .error .unordered => return .broken
      | .ok result => finish o s result

/-- Run a session. -/
def run (arguments : List String) (userFile : String) : m Outcome :=
  match parse arguments with
  | .misuse => pure .misuse
  | .version => pure ⟨0, versionText ++ "\n", ""⟩
  | .help => pure ⟨0, helpText ++ "\n", ""⟩
  | .run options => runOptions options userFile

end Session

end Toolpath.CommandLine
