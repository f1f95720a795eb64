import SpokenKeys.Json.Basic

/-!
The listening state that lasts from one utterance to the next. A session starts
awake; while it sleeps every utterance but the wake phrase comes to nothing.
-/

namespace SpokenKeys

/-- Whether the session acts on what it hears. -/
inductive Session where
  | awake
  | asleep
deriving DecidableEq, Repr, Inhabited

namespace Session

def name : Session → String
  | .awake => "awake"
  | .asleep => "asleep"

def ofName? : String → Option Session
  | "awake" => some .awake
  | "asleep" => some .asleep
  | _ => none

def isSleeping : Session → Bool
  | .awake => false
  | .asleep => true

def toJson (session : Session) : Json := .object [("state", .text session.name)]

def ofJson? (document : Json) : Option Session := do
  match ← document.record? ["state"] with
  | [state] => ofName? (← (← state).bareName?)
  | _ => none

end Session

end SpokenKeys
