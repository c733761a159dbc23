import Toolpath.Settings.Record
import Toolpath.Json.Reader
import Toolpath.Json.Printer
import Toolpath.Toml.Reader
import Toolpath.Toml.Printer
import Toolpath.File

/-!
# Settings files

Settings are kept in JSON or TOML files, told apart by the extension of the file name. Only valid
settings are saved, and only valid settings are loaded.
-/

namespace Toolpath

/-- Why settings cannot be loaded or saved. -/
inductive SettingsError where
  | invalid (fault : SettingFault Float32)
  | unsupportedFormat (extension : String)
  | unreadable (path : String) (fault : FileFault)
  | unwritable (path : String) (fault : FileFault)
  | directory (fault : FileFault)
  | json
  | toml

/-- The format of a settings file. -/
inductive SettingsFormat where
  | json
  | toml
  deriving DecidableEq

namespace SettingsError

/-- The message for settings that are no settings, without what was going on. -/
def cause? : SettingsError → Option String
  | invalid fault => some fault.message
  | unsupportedFormat extension => some ("Unsupported config format: " ++ extension)
  | _ => none

/-- The message for settings that cannot be loaded or saved. -/
def message : SettingsError → String
  | invalid fault => "Config error: " ++ fault.message
  | unsupportedFormat extension => "Config error: Unsupported config format: " ++ extension
  | unreadable path fault => "Failed to load settings: " ++ path ++ ": " ++ fault.message
  | unwritable path fault => "Failed to save settings: " ++ path ++ ": " ++ fault.message
  | directory fault => "Config directory error: " ++ fault.message
  | json => "JSON error"
  | toml => "TOML error"

/-- The message with the causes behind it. -/
def chain (e : SettingsError) : String :=
  match e.cause? with
  | some cause => e.message ++ ": " ++ cause
  | none => e.message

end SettingsError

/-- The format that the name of a file asks for. -/
def SettingsFormat.ofPath (path : String) : Except SettingsError SettingsFormat :=
  match extensionOf? path with
  | some "json" => .ok .json
  | some "toml" => .ok .toml
  | some extension => .error (.unsupportedFormat extension)
  | none => .error (.unsupportedFormat "<none>")

namespace Settings

/-- Settings that pass validation. -/
def checked (s : Settings Float32) : Except SettingsError (Settings Float32) :=
  match s.validate with
  | .ok () => .ok s
  | .error fault => .error (.invalid fault)

section Text

variable (t : Json.SingleText)

/-- Read settings from text. -/
def ofText (format : SettingsFormat) (text : String) : Except SettingsError (Settings Float32) :=
  match format with
  | .json =>
    match (Json.ofText? text).bind (@read? Json (Json.recordValue t)) with
    | some s => s.checked
    | none => .error .json
  | .toml =>
    match (Toml.ofText? text).bind read? with
    | some s => s.checked
    | none => .error .toml

/-- The text of settings. -/
def toText (format : SettingsFormat) (s : Settings Float32) : Except SettingsError String :=
  match format with
  | .json => .ok (s.toJson t).toPrettyText
  | .toml =>
    match s.toToml? with
    | some statements => .ok (Toml.toText statements)
    | none => .error .toml

/-- Read settings from the content of a file. -/
def ofContent (path : String) (format : SettingsFormat) (content : Except FileFault FileContent) :
    Except SettingsError (Settings Float32) :=
  match content.bind FileContent.text? with
  | .error fault => .error (.unreadable path fault)
  | .ok text => ofText t format text

/-- The text that is saved for settings. -/
def savedText (s : Settings Float32) (path : String) : Except SettingsError String := do
  let s ← s.checked
  let format ← SettingsFormat.ofPath path
  s.toText t format

end Text

section Access

variable {m : Type → Type} [Monad m] [FileAccess m]

/-- Load settings from a file whose numbers are kept as given. -/
def loadBy (t : Json.SingleText) (path : String) :
    m (Except SettingsError (Settings Float32)) := do
  match SettingsFormat.ofPath path with
  | .error e => return .error e
  | .ok format => return ofContent t path format (← FileAccess.read path)

/-- Save settings to a file whose numbers are kept as given, in a directory that is made where it is
missing. -/
def saveBy (t : Json.SingleText) (s : Settings Float32) (path : String) :
    m (Except SettingsError Unit) := do
  match s.savedText t path with
  | .error e => return .error e
  | .ok text =>
    let parent := parentOf path
    let made ← if parent.isEmpty then pure (.ok ()) else FileAccess.makeDirectories parent
    match made with
    | .error fault => return .error (.directory fault)
    | .ok () =>
      match ← FileAccess.write path (FileContent.ofText text) with
      | .error fault => return .error (.unwritable path fault)
      | .ok () => return .ok ()

/-- Load settings from a file. -/
def load (path : String) : m (Except SettingsError (Settings Float32)) := loadBy .shortest path

/-- Save settings to a file. -/
def save (s : Settings Float32) (path : String) : m (Except SettingsError Unit) :=
  s.saveBy .shortest path

/-- Load settings from a file that need not be there. -/
def loadOrDefault (path : String) : m (Except SettingsError (Settings Float32)) := do
  if ← FileAccess.exists? path then load path else return .ok .default

end Access

end Settings

end Toolpath
