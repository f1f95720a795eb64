import SpokenKeys.Text.Case

/-!
Levels of log events, the most severe first.
-/

namespace SpokenKeys.Log

/-- How severe an event is. -/
inductive Level where
  | error | warning | info | debug
deriving DecidableEq, Repr, Inhabited

namespace Level

/-- Every level, the most severe first. -/
def all : List Level := [.error, .warning, .info, .debug]

/-- Place of the level, the most severe at zero. -/
def rank : Level → Nat
  | .error => 0
  | .warning => 1
  | .info => 2
  | .debug => 3

/-- The level as log lines show it. -/
def label : Level → String
  | .error => "ERROR"
  | .warning => "WARN"
  | .info => "INFO"
  | .debug => "DEBUG"

/-- The level as settings files write it. -/
def name : Level → String
  | .error => "error"
  | .warning => "warning"
  | .info => "info"
  | .debug => "debug"

/-- The level as summaries show it. -/
def title : Level → String
  | .error => "Error"
  | .warning => "Warning"
  | .info => "Info"
  | .debug => "Debug"

def ofName? (name : String) : Option Level := all.find? fun level => level.name == name

/-- The level an environment variable names: a name in any case, a common short
form, or the rank. -/
def ofText? (text : String) : Option Level :=
  match Text.lowercase text with
  | "error" | "0" => some .error
  | "warning" | "warn" | "1" => some .warning
  | "info" | "2" => some .info
  | "debug" | "3" => some .debug
  | _ => none

/-- Whether an event of this level passes a filter of the given level. -/
def passes (level filter : Level) : Bool := level.rank ≤ filter.rank

end Level

end SpokenKeys.Log
