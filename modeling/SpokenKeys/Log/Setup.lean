import SpokenKeys.Log.Journal
import SpokenKeys.Text.Lines

/-!
Setting up the journal: preferences and the service are set once, a service for
the preferences is opened, and the whole is described for people.
-/

namespace SpokenKeys.Log

/-- Why the journal is not set up. -/
inductive SetupError where
  | blankFile
  | preferencesSet
  | serviceSet
  /-- The file cannot be opened. -/
  | unopened (fault : Files.FileFault)
  | invalid (cause : SetupError)
deriving DecidableEq, Repr

def SetupError.message : SetupError → String
  | .blankFile => "Log file path cannot be blank"
  | .preferencesSet => "Runtime preferences already initialized"
  | .serviceSet => "Global logger already initialized"
  | .unopened fault => s!"Failed to create logging service: {fault.message}"
  | .invalid cause => s!"Configuration validation failed: {cause.message}"

namespace Journal

/-- Whether preferences can be set at all. -/
def checkPreferences (preferences : LoggingPreferences) : Except SetupError Unit :=
  if preferences.isUsable then .ok () else .error .blankFile

/-- Sets the preferences, which is done once. -/
def setPreferences (journal : Journal) (preferences : LoggingPreferences) :
    Except SetupError Journal := do
  checkPreferences preferences
  match journal.preferences? with
  | some _ => .error .preferencesSet
  | none => .ok { journal with preferences? := some preferences }

/-- Checks the preferences that were set. Defaults are not checked. -/
def validate (journal : Journal) : Except SetupError Unit :=
  match journal.preferences? with
  | some preferences => checkPreferences preferences
  | none => .ok ()

/-- Installs a service, which is done once. -/
def install (journal : Journal) (service : Service) : Except SetupError Journal :=
  match journal.service? with
  | some _ => .error .serviceSet
  | none => .ok { journal with service? := some service }

/-- Opens the file that preferences name, if they name one. -/
def openFile (journal : Journal) :
    Except SetupError (Option Files.Location) × Journal :=
  match journal.preferences.file with
  | none => (.ok none, journal)
  | some path =>
      match journal.files.openLog (.ofText path) with
      | (.error fault, files) => (.error (.unopened fault), { journal with files })
      | (.ok location, files) => (.ok (some location), { journal with files })

/-- Sets logging up as the preferences ask for, and says so in the log. A file
that was opened stays in existence even if a service was installed before. -/
def setUp (journal : Journal) : Except SetupError Unit × Journal :=
  match journal.validate with
  | .error cause => (.error (.invalid cause), journal)
  | .ok _ =>
      match journal.openFile with
      | (.error error, journal) => (.error error, journal)
      | (.ok file?, journal) =>
          match journal.install (.ofPreferences journal.preferences file?) with
          | .error error => (.error error, journal)
          | .ok journal =>
              (.ok (), journal.deliver (.info .initialized "Global logging system initialized"))

/-- The limits and preferences in words. -/
def summary (journal : Journal) : String :=
  let preferences := journal.preferences
  "\n".intercalate [
    "Logging Configuration:",
    "=== Limits (Compile-time) ===",
    s!"- Log buffer size: {Limits.logBuffer}",
    s!"- Max events per utterance: {Limits.utteranceEvents}",
    s!"- Max message length: {Limits.messageBytes}",
    "=== User Preferences (Runtime) ===",
    s!"- Min log level: {preferences.minLevel.title}",
    s!"- Structured logging: {preferences.structured}",
    s!"- Console logging: {preferences.console}",
    "- Log file: " ++ preferences.file.getD "(none)",
    s!"- Include utterance context: {preferences.tagsUtterances}"]

/-- The state of logging in words. -/
def diagnostics (journal : Journal) : String :=
  let current := match journal.utterance? with
    | some utterance => s!"Current utterance: {utterance.number} ({utterance.entry})\n"
    | none => ""
  s!"=== Logging System Diagnostics ===\nInitialized: {journal.service?.isSome}\n" ++
    current ++ "\n" ++ journal.summary

/-- The lines of records that are written with an end of line behind each. -/
def linesOf (records : List String) : List String :=
  records.flatMap fun record => Text.lines (record ++ "\n")

def output (journal : Journal) : List String :=
  match journal.service? with
  | none => []
  | some service => linesOf <| service.sinks.flatMap fun
      | .console _ output _ => output.toList
      | _ => []

def errorOutput (journal : Journal) : List String :=
  linesOf <| journal.fallback.toList ++
    match journal.service? with
    | none => []
    | some service => service.sinks.flatMap fun
        | .console _ _ errors => errors.toList
        | _ => []

/-- The lines of the file at a path. -/
def fileLines? (journal : Journal) (path : String) : Option (List String) :=
  match journal.files.locate (.ofText path) with
  | .error _ => none
  | .ok location =>
      match journal.service? with
      | none => some []
      | some service => some <| linesOf <| service.sinks.flatMap fun
          | .file other _ lines => if other = location then lines.toList else []
          | _ => []

end Journal

end SpokenKeys.Log
