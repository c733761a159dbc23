/-!
# Command line arguments

Arguments are read from left to right. An option takes its value from the same argument, behind an
equals sign or right behind its letter, or from the next argument, which then may not look like an
option. Behind a lone `--` everything is a plain argument. Nothing may be given twice, and the one
plain argument is the program.
-/

namespace Toolpath.CommandLine

/-- The format of the report. -/
inductive ReportFormat where
  | text
  | json
  deriving DecidableEq

/-- What a command line asks for. -/
structure Options where
  input : Option String
  config : Option String
  output : Option String
  format : Option ReportFormat
  strict : Bool
  yUp : Bool
  quiet : Bool
  deriving DecidableEq

/-- What becomes of a command line. -/
inductive Request where
  | run (options : Options)
  | version
  | help
  | misuse
  deriving DecidableEq

/-- The options that take a value. -/
inductive ValueOption where
  | config
  | output
  | format
  deriving DecidableEq

/-- The options that take none. -/
inductive Flag where
  | strict
  | yUp
  | quiet
  | version
  | help
  deriving DecidableEq

/-- An option by its name. -/
inductive OptionName where
  | valued (option : ValueOption)
  | flag (flag : Flag)

/-- The option with a long name. -/
def longOption? : String → Option OptionName
  | "config" => some (.valued .config)
  | "output" => some (.valued .output)
  | "output-format" => some (.valued .format)
  | "strict" => some (.flag .strict)
  | "y-up" => some (.flag .yUp)
  | "log-disable" => some (.flag .quiet)
  | "version" => some (.flag .version)
  | "help" => some (.flag .help)
  | _ => none

/-- The option with a letter. -/
def shortOption? : Char → Option OptionName
  | 'c' => some (.valued .config)
  | 'o' => some (.valued .output)
  | 'V' => some (.flag .version)
  | 'h' => some (.flag .help)
  | _ => none

namespace Options

/-- No argument given. -/
def none : Options := ⟨.none, .none, .none, .none, false, false, false⟩

/-- Set the value of an option, unless it has one or the value is not one of its kind. -/
def setValue (o : Options) (option : ValueOption) (value : String) : Except Request Options :=
  match option with
  | .config =>
    if o.config.isSome ∨ value = "" then .error .misuse else .ok { o with config := some value }
  | .output =>
    if o.output.isSome ∨ value = "" then .error .misuse else .ok { o with output := some value }
  | .format =>
    if o.format.isSome then .error .misuse
    else
      match value with
      | "text" => .ok { o with format := some .text }
      | "json" => .ok { o with format := some .json }
      | _ => .error .misuse

/-- Set a flag, unless it is set. -/
def setFlag (o : Options) : Flag → Except Request Options
  | .strict => if o.strict then .error .misuse else .ok { o with strict := true }
  | .yUp => if o.yUp then .error .misuse else .ok { o with yUp := true }
  | .quiet => if o.quiet then .error .misuse else .ok { o with quiet := true }
  | .version => .error .version
  | .help => .error .help

/-- Set the plain argument, unless it is set or empty. -/
def setInput (o : Options) (value : String) : Except Request Options :=
  if o.input.isSome ∨ value = "" then .error .misuse else .ok { o with input := some value }

end Options

/-- What one argument leaves to do: nothing, or an option that waits for its value. -/
abbrev Pending := Option ValueOption

/-- Whether an argument looks like an option. -/
def looksLikeOption (argument : String) : Bool := argument.startsWith "-" && argument ≠ "-"

/-- Take an argument that starts with two dashes; the rest is what follows them. -/
def takeLong (o : Options) (rest : String) : Except Request (Options × Pending) :=
  let (name, value) := rest.toList.span (· ≠ '=')
  match longOption? (String.ofList name), value with
  | .none, _ => .error .misuse
  | some (.flag flag), [] => do return (← o.setFlag flag, .none)
  | some (.flag _), _ :: _ => .error .misuse
  | some (.valued option), [] => .ok (o, some option)
  | some (.valued option), _ :: value => do
    return (← o.setValue option (String.ofList value), .none)

/-- Take the letters behind a single dash. -/
def takeShort (o : Options) : List Char → Except Request (Options × Pending)
  | [] => .ok (o, .none)
  | c :: rest =>
    match shortOption? c with
    | .none => .error .misuse
    | some (.flag flag) => do takeShort (← o.setFlag flag) rest
    | some (.valued option) =>
      match rest with
      | [] => .ok (o, some option)
      | '=' :: value => do return (← o.setValue option (String.ofList value), .none)
      | value => do return (← o.setValue option (String.ofList value), .none)

/-- Take the arguments behind a lone `--`. -/
def takePlain (o : Options) (arguments : List String) : Except Request Options :=
  arguments.foldlM Options.setInput o

/-- Take arguments in order, given the option that waits for its value. -/
def take (o : Options) : Pending → List String → Except Request Options
  | .none, [] => .ok o
  | some _, [] => .error .misuse
  | some option, argument :: rest =>
    if looksLikeOption argument then .error .misuse
    else do take (← o.setValue option argument) .none rest
  | .none, argument :: rest =>
    if argument = "--" then takePlain o rest
    else if looksLikeOption argument then do
      let (o, pending) ←
        if argument.startsWith "--" then takeLong o (argument.drop 2).toString
        else takeShort o (argument.toList.drop 1)
      take o pending rest
    else do take (← o.setInput argument) .none rest

/-- Read a command line. -/
def parse (arguments : List String) : Request :=
  match take .none .none arguments with
  | .error request => request
  | .ok options => if options.input.isSome then .run options else .misuse

end Toolpath.CommandLine
