import SpokenKeys.Files.Tree
import SpokenKeys.Settings.Preferences
import SpokenKeys.Toml.Reader

/-!
Settings files: preferences written in TOML. A file leaves out what it does not
change, and names that are not known are ignored.
-/

namespace SpokenKeys

/-- Why there are no preferences. -/
inductive SettingsError where
  /-- The file at the path cannot be read. -/
  | unreadable (path : String) (fault : Files.FileFault)
  /-- The text is not TOML, or a preference has a value of the wrong kind. -/
  | invalid
deriving DecidableEq, Repr

def SettingsError.message : SettingsError → String
  | .unreadable path fault => s!"Failed to read {path}: {fault.message}"
  | .invalid => "Invalid runtime configuration"

namespace Preferences

/-- The preferences that a settings file's text gives, over defaults. -/
def ofText (defaults : Preferences) (text : String) : Except SettingsError Preferences :=
  match (Toml.parse? text).bind (defaults.read? .toml) with
  | some preferences => .ok preferences
  | none => .error .invalid

/-- The preferences of the settings file at a path, whose text comes from
elsewhere. -/
def ofFile (defaults : Preferences) (files : Files.Tree) (contents : Files.Location → String)
    (path : String) : Except SettingsError Preferences :=
  match files.locate (.ofText path) with
  | .error fault => .error (.unreadable path fault)
  | .ok location => defaults.ofText (contents location)

end Preferences

end SpokenKeys
