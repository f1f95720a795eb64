import SpokenKeys.Log.Service

/-!
The program's journal: the service in use, the utterance that is being
processed, and how many of its events were admitted. Within an utterance only a
limited number of events that are not errors is admitted; what was refused is
reported when the utterance is over.
-/

namespace SpokenKeys.Log

/-- The utterance that is being processed. -/
structure Utterance where
  /-- Number of the utterance in its session, from one. -/
  number : Nat
  /-- The name of the entry point it is parsed against. -/
  entry : String
deriving DecidableEq, Repr, Inhabited

/-- The state of logging. -/
structure Journal where
  environment : Environment := {}
  /-- Preferences that were set; until then the environment's defaults hold. -/
  preferences? : Option LoggingPreferences := none
  service? : Option Service := none
  utterance? : Option Utterance := none
  /-- Number of events, errors apart, that the utterance asked for. -/
  asked : Nat := 0
  /-- Number of those that were refused. -/
  dropped : Nat := 0
  /-- Lines written to the error output for want of a service. -/
  fallback : Array String := #[]
  /-- The files there are. -/
  files : Files.Tree := .fresh
deriving Inhabited

abbrev Logging := StateM Journal

namespace Journal

def preferences (journal : Journal) : LoggingPreferences :=
  journal.preferences?.getD (.ofEnvironment journal.environment)

/-- The journal with an utterance begun; it has no events yet. -/
def beginUtterance (journal : Journal) (utterance : Utterance) : Journal :=
  { journal with utterance? := some utterance, asked := 0, dropped := 0 }

/-- The journal outside of any utterance. -/
def endUtterance (journal : Journal) : Journal :=
  { journal with utterance? := none, asked := 0, dropped := 0 }

/-- Whether an event of a level is admitted, and the journal that has counted
it. Errors always are, and so is everything outside of an utterance. -/
def allow (journal : Journal) (level : Level) : Bool × Journal :=
  if level = .error ∨ journal.utterance? = none then (true, journal)
  else
    let journal := { journal with asked := journal.asked + 1 }
    if Limits.utteranceEvents < journal.asked then
      (false, { journal with dropped := journal.dropped + 1 })
    else (true, journal)

/-- An event tagged with the utterance, if that is wanted. -/
def tag (journal : Journal) (event : Event) : Event :=
  match journal.utterance? with
  | some utterance =>
      if journal.preferences.tagsUtterances then
        event.withDetails [("utterance", toString utterance.number), ("entry", utterance.entry)]
      else event
  | none => event

/-- The journal after the service has received an event, untagged and uncounted. -/
def deliver (journal : Journal) (event : Event) : Journal :=
  { journal with service? := journal.service?.map (·.log event) }

def emit (journal : Journal) (event : Event) : Journal :=
  if journal.service?.isSome then
    let (admitted, journal) := journal.allow event.level
    if admitted then journal.deliver (journal.tag event) else journal
  else journal

/-- The warning about refused events of an utterance. -/
def limitWarning (number dropped : Nat) : Event :=
  (Event.warning .plainWarning "Per-utterance log event limit reached").withDetails
    [("utterance", toString number), ("dropped", toString dropped)]

/-- The journal after an error that is logged even without a service. -/
def emitSafely (journal : Journal) (code : Code) (message : String) : Journal :=
  if journal.service?.isSome then journal.deliver (.error code message)
  else
    let line := s!"[ERROR] FALLBACK: [{code.name}] {message}"
    { journal with fallback := journal.fallback.push line }

/-- The events that the service's memory sinks keep. -/
def events (journal : Journal) : List Event :=
  match journal.service? with
  | some service => service.sinks.flatMap Sink.events
  | none => []

end Journal

def emit (event : Event) : Logging Unit := modify (·.emit event)

/-- Logs a debugging event, if the preferences ask for such. -/
def emitDebug (message : String) (details : List (String × String)) : Logging Unit := do
  let journal ← get
  if Level.debug.passes journal.preferences.minLevel then
    emit ((Event.debug .plainDebug message).withDetails details)

/-- Runs a computation as the processing of an utterance. -/
def withUtterance {α : Type} (utterance : Utterance) (body : Logging α) : Logging α := do
  modify (·.beginUtterance utterance)
  let result ← body
  let dropped := (← get).dropped
  modify Journal.endUtterance
  if 0 < dropped then
    modify (·.deliver (Journal.limitWarning utterance.number dropped))
  return result

end SpokenKeys.Log
