import SpokenKeys.Files.Tree
import SpokenKeys.Log.Memory
import SpokenKeys.Settings.Preferences

/-!
Sinks for events, and the service that passes events of sufficient level on to
its sinks. A sink is a value that holds what it has received.
-/

namespace SpokenKeys.Log

/-- How a sink writes an event. -/
inductive LineFormat where
  | text | json
deriving DecidableEq, Repr, Inhabited

namespace LineFormat

/-- The format for structured or plain output. -/
def ofStructured (structured : Bool) : LineFormat := if structured then .json else .text

def render (format : LineFormat) (event : Event) : String :=
  match format with
  | .text => event.line
  | .json => event.jsonLine

end LineFormat

/-- A receiver of events. -/
inductive Sink where
  | memory (log : MemoryLog)
  /-- Errors go to the error output and everything else to the output. -/
  | console (format : LineFormat) (output errors : Array String)
  /-- One line for each event at the end of a file. -/
  | file (location : Files.Location) (format : LineFormat) (lines : Array String)
deriving Inhabited

namespace Sink

/-- The sink after one more event. -/
def receive (event : Event) : Sink → Sink
  | .memory log => .memory (log.record event)
  | .console format output errors =>
      if event.isError then .console format output (errors.push (format.render event))
      else .console format (output.push (format.render event)) errors
  | .file location format lines => .file location format (lines.push (format.render event))

def events : Sink → List Event
  | .memory log => log.toList
  | _ => []

end Sink

/-- A level filter in front of sinks. -/
structure Service where
  minLevel : Level
  sinks : List Sink := []
deriving Inhabited

namespace Service

/-- The service after an event, which every sink receives if its level passes. -/
def log (service : Service) (event : Event) : Service :=
  if event.level.passes service.minLevel then
    { service with sinks := service.sinks.map (Sink.receive event) }
  else service

/-- The service that preferences ask for, with the file that was opened for it. -/
def ofPreferences (preferences : LoggingPreferences) (file? : Option Files.Location) :
    Service :=
  let format := LineFormat.ofStructured preferences.structured
  { minLevel := preferences.minLevel
    sinks :=
      (if preferences.console then [.console format #[] #[]] else []) ++
      (match file? with
        | some location => [.file location format #[]]
        | none => []) }

end Service

end SpokenKeys.Log
