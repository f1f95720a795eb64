import SpokenKeys.Json.Printer
import SpokenKeys.Limits
import SpokenKeys.Log.Code
import SpokenKeys.Log.Level
import SpokenKeys.Log.Timestamp

/-!
Log events: what they hold, how their messages are cut, and their two written
forms, a line of text and a line of JSON.
-/

namespace SpokenKeys.Log

/-- Named details of an event, in the order of their names. -/
abbrev Details := List (String × String)

namespace Details

/-- The details with a value for a name; an earlier value of the name is
replaced. -/
def insert (key value : String) : Details → Details
  | [] => [(key, value)]
  | (name, old) :: rest =>
      if key < name then (key, value) :: (name, old) :: rest
      else if key = name then (key, value) :: rest
      else (name, old) :: insert key value rest

/-- The value of a name. -/
def get? (key : String) (details : Details) : Option String := details.lookup key

end Details

/-- An event in the life of the program. -/
structure Event where
  level : Level
  code : Code
  message : String
  /-- Position of the word the event refers to. -/
  wordNo : Option Nat := none
  details : Details := []
  time : Timestamp := ⟨0⟩
deriving DecidableEq, Repr, Inhabited

/-- The last place of a text, at a byte or before it, where a character begins or the text
ends. It is searched byte by byte backwards; none is found if the search passes the first. -/
def placeUpTo? (text : String) : Nat → Option text.Pos
  | 0 => if h : String.Pos.Raw.IsValid text ⟨0⟩ then some (text.pos ⟨0⟩ h) else none
  | byte + 1 =>
      if h : String.Pos.Raw.IsValid text ⟨byte + 1⟩ then some (text.pos ⟨byte + 1⟩ h)
      else placeUpTo? text byte

/-- A message cut to the size limit, with three dots where something was cut. -/
def cutMessage (message : String) : String :=
  if message.utf8ByteSize ≤ Limits.messageBytes then message
  else
    match placeUpTo? message Limits.messageBytes with
    | some place => (message.sliceTo place).copy ++ "..."
    | none => "..."

namespace Event

/-- An event with its message cut to size. -/
def make (level : Level) (code : Code) (message : String) : Event :=
  ⟨level, code, cutMessage message, none, [], ⟨0⟩⟩

def error (code : Code) (message : String) : Event := make .error code message

def warning (code : Code) (message : String) : Event := make .warning code message

def info (code : Code) (message : String) : Event := make .info code message

def debug (code : Code) (message : String) : Event := make .debug code message

/-- The event at a word. -/
def atWord (event : Event) (wordNo : Nat) : Event := { event with wordNo := some wordNo }

def withDetail (event : Event) (key value : String) : Event :=
  { event with details := event.details.insert key value }

def withDetails (event : Event) (details : List (String × String)) : Event :=
  details.foldl (fun event detail => event.withDetail detail.1 detail.2) event

def isError (event : Event) : Bool := event.level == .error

/-- The number of the utterance the event is tagged with. -/
def utteranceTag? (event : Event) : Option String := event.details.get? "utterance"

/-- The event as a line of text. The utterance's number follows the code; the
other details stand in braces at the end. -/
def line (event : Event) : String :=
  let tag := match event.utteranceTag? with
    | some number => " u" ++ number
    | none => ""
  let place := match event.wordNo with
    | some wordNo => s!" at word {wordNo}"
    | none => ""
  let rest := (event.details.filter fun detail => detail.1 != "utterance").map fun detail =>
    detail.1 ++ "=" ++ detail.2
  let braces := if rest.isEmpty then "" else " \x7b" ++ ", ".intercalate rest ++ "\x7d"
  s!"[{event.level.label}] {event.code.name}" ++ tag ++ " - " ++ event.message ++ place ++ braces

/-- The event as a document. Only errors say whether they are recoverable, and
an event without a word or details leaves them out. -/
def toJson (event : Event) : Json :=
  .object <| [
      ("timestamp", .text event.time.text),
      ("level", .text event.level.label),
      ("code", .text event.code.name),
      ("category", .text event.code.category),
      ("message", .text event.message)] ++
    (match event.wordNo with
      | some wordNo => [("word_no", .nat wordNo)]
      | none => []) ++
    (if event.isError then [("recoverable", .bool event.code.isRecoverable)] else []) ++
    (if event.details.isEmpty then []
      else [("context", .object (event.details.map fun detail => (detail.1, .text detail.2)))])

/-- The event as a line of JSON. -/
def jsonLine (event : Event) : String := event.toJson.print

end Event

end SpokenKeys.Log
