import SpokenKeys.Action.Json
import SpokenKeys.Parser
import SpokenKeys.Tokenizer

/-!
From text to actions in one step: a tokenizer and a parser that agree on their
entry point, what they return, and what an executor receives.
-/

namespace SpokenKeys

/-- Why a text does not become an action. -/
inductive PipelineError where
  | lexical (error : LexicalError)
  | syntactic (error : ParseError)
  | other (message : String)
deriving DecidableEq, Repr

namespace PipelineError

def kindName : PipelineError → String
  | .lexical _ => "LexicalAnalysis"
  | .syntactic _ => "SyntaxAnalysis"
  | .other _ => "Pipeline"

def message : PipelineError → String
  | .lexical error => s!"Lexical analysis failed: {error.message}"
  | .syntactic error => s!"Syntax analysis failed: {error.message}"
  | .other message => s!"Pipeline error: {message}"

def code : PipelineError → Log.Code
  | .lexical error => error.code
  | .syntactic error => error.code
  | .other _ => .internalError

/-- Position of the word that is blamed. -/
def wordNo? : PipelineError → Option Nat
  | .lexical error => error.wordNo?
  | .syntactic error => error.wordNo?
  | .other _ => none

end PipelineError

/-- One utterance that became an action. -/
structure PipelineResult where
  action : Action
  wordCount : Nat
  tokenCount : Nat
  ties : Nat
  reductions : Nat
  /-- Whether the session sleeps after the utterance. -/
  sleeping : Bool
deriving DecidableEq, Repr

namespace PipelineResult

/-- The result for a stream, a parser's outcome and the session after it. -/
def make (stream : TokenStream) (outcome : ParseOutcome) (session : Session) : PipelineResult where
  action := outcome.action
  wordCount := stream.wordCount
  tokenCount := stream.length
  ties := outcome.ties
  reductions := outcome.reductions
  sleeping := session.isSleeping

/-- Whether there is nothing to execute. -/
def isNoop (result : PipelineResult) : Bool := result.action.isIdle

/-- Microseconds as milliseconds with three decimals. -/
def millisText (micros : Nat) : String :=
  toString (micros / 1000) ++ "." ++ Log.Timestamp.padded 3 (micros % 1000)

/-- The event of a processed utterance, which took some microseconds. -/
def event (result : PipelineResult) (text : String) (micros : Nat) : Log.Event :=
  (Log.Event.info .parsed "Utterance processing pipeline succeeded").withDetails [
    ("utterance", text),
    ("kind", result.action.kindName),
    ("words", toString result.wordCount),
    ("duration_ms", millisText micros)]

end PipelineResult

/-- What an executor receives for one utterance. -/
structure PipelineOutput where
  action : Action
  sleeping : Bool
  words : UInt64
deriving DecidableEq, Repr

namespace PipelineOutput

/-- The output for a result. -/
def ofResult (result : PipelineResult) : PipelineOutput :=
  ⟨result.action, result.sleeping, UInt64.ofNat result.wordCount⟩

def toJson (output : PipelineOutput) : Json :=
  .object [
    ("action", output.action.toJson),
    ("sleeping", .bool output.sleeping),
    ("words", .nat output.words.toNat)]

def print (output : PipelineOutput) : String := output.toJson.print

def ofJson? (document : Json) : Option PipelineOutput := do
  match ← document.record? ["action", "sleeping", "words"] with
  | [action, sleeping, words] =>
      let action ← Action.ofJson? (← action)
      let sleeping ← (← sleeping).bool?
      let words ← (← words).word?
      some ⟨action, sleeping, UInt64.ofNat words⟩
  | _ => none

end PipelineOutput

/-- A tokenizer and a parser with one entry point. -/
structure Pipeline where
  tokenizer : Tokenizer
  parser : Parser
deriving Inhabited

namespace Pipeline

/-- The pipeline around a parser, whose session goes on. -/
def ofParts (parser : Parser) (preferences : LexicalPreferences) : Pipeline where
  tokenizer := { entry := parser.entry, preferences }
  parser := parser

/-- The pipeline that preferences ask for. -/
def ofPreferences (preferences : Preferences) : Pipeline :=
  ofParts (.ofPreferences preferences.grammar) preferences.lexical

/-- Turns a text into an action. The caller's clock tells how many microseconds
that takes. -/
def process (pipeline : Pipeline) (text : String) (micros : Nat) :
    Log.Logging (Except PipelineError PipelineResult × Pipeline) := do
  let (tokens, tokenizer) ← pipeline.tokenizer.tokenize text
  let pipeline := { pipeline with tokenizer }
  match tokens with
  | .error error => return (.error (.lexical error), pipeline)
  | .ok stream =>
      let (outcome, parser) ← pipeline.parser.parse stream.tokens
      let pipeline := { pipeline with parser }
      match outcome with
      | .error error => return (.error (.syntactic error), pipeline)
      | .ok outcome =>
          let result := PipelineResult.make stream outcome parser.session
          Log.emit (result.event text micros)
          return (.ok result, pipeline)

end Pipeline

/-- Turns a text into an action in a parser's session, with the environment's
lexical preferences. -/
def processUtterance (parser : Parser) (text : String) (micros : Nat) :
    Log.Logging (Except PipelineError PipelineResult × Parser) := do
  Log.emitDebug "Starting utterance processing" [("utterance", text)]
  match ← tokenizeUtterance text parser.entry with
  | .error error => return (.error (.lexical error), parser)
  | .ok stream =>
      let (outcome, parser) ← parser.parse stream.tokens
      match outcome with
      | .error error => return (.error (.syntactic error), parser)
      | .ok outcome =>
          let result := PipelineResult.make stream outcome parser.session
          Log.emit (result.event text micros)
          return (.ok result, parser)

end SpokenKeys
