import SpokenKeys.Grammar.Commands
import SpokenKeys.Log.Journal
import SpokenKeys.Parse.Evaluation
import SpokenKeys.Token.Stream

/-!
The parser of one voice session. It turns the tokens of one utterance after the
other into actions and carries the session along; an utterance that is rejected
leaves the session as it was.
-/

namespace SpokenKeys

/-- An accepted utterance. -/
structure ParseOutcome where
  action : Action
  /-- Number of choices that the derivation left. -/
  ties : Nat
  /-- Number of meanings applied. -/
  reductions : Nat
  chartItems : Nat
deriving DecidableEq, Repr

/-- Counts over the life of a parser. -/
structure ParserStats where
  utterances : Nat := 0
  accepted : Nat := 0
  rejected : Nat := 0
  /-- Accepted while asleep, before and after. -/
  suppressed : Nat := 0
  /-- Accepted with a choice left. -/
  ambiguous : Nat := 0
deriving DecidableEq, Repr, Inhabited

/-- The parser of a voice session. -/
structure Parser where
  entry : Entry
  session : Session := .awake
  preferences : GrammarPreferences := {}
  /-- Receives the steps of every derivation. -/
  trace? : Option Log.MemoryLog := none
  stats : ParserStats := {}
deriving Inhabited

namespace Parser

/-- A parser whose entry point follows its preferences. -/
def ofPreferences (preferences : GrammarPreferences) : Parser where
  entry := .ofTolerance preferences.dropsJunk
  preferences := preferences

/-- What an evaluation of tokens comes to: the result and all that was told. -/
def interpretTokens (start : Rule) (tokens : List Token) (session : Session) :
    Except ParseError Parsed × Evaluation :=
  (interpret Commands.grammar start tokens).run.run { session }

/-- The outcome of an utterance: its value must be an action. -/
def outcomeOf (parsed : Parsed) : Except ParseError ParseOutcome :=
  match parsed.value with
  | .node action => .ok ⟨action, parsed.ties, parsed.reductions, parsed.chartItems⟩
  | other =>
      .error (.internal s!"entry production returned {other.kind.name} instead of an action")

/-- Passes a note on: steps go to the trace, and to the log if that is preferred;
events go to the log. -/
def relay (parser : Parser) (note : Note) : Log.Logging Parser :=
  match note with
  | .step event => do
      if parser.preferences.logsReductions then Log.emit event
      return { parser with trace? := parser.trace?.map (·.record event) }
  | .event event => do
      Log.emit event
      return parser

def relayAll (parser : Parser) (notes : List Note) : Log.Logging Parser :=
  notes.foldlM relay parser

def rejectionEvent (error : ParseError) : Log.Event :=
  let event := (Log.Event.error error.code "Utterance rejected").withDetail "error" error.message
  match error.wordNo? with
  | some wordNo => event.atWord wordNo
  | none => event

def acceptanceEvent (action : Action) (session : Session) : Log.Event :=
  (Log.Event.info .parsed "Utterance parsed").withDetails [
    ("kind", action.kindName),
    ("nodes", toString action.size),
    ("sleeping", toString session.isSleeping)]

/-- The warning about a derivation with choices left. -/
def ambiguityEvent (ties : Nat) : Log.Event :=
  (Log.Event.warning .ambiguousDerivation "Ambiguous derivation resolved by tie-break").withDetail
    "ties" (toString ties)

/-- The counts after an accepted utterance. -/
def acceptedStats (stats : ParserStats) (before after : Session) (ties : Nat) : ParserStats :=
  { stats with
    accepted := stats.accepted + 1
    suppressed := stats.suppressed + if before.isSleeping && after.isSleeping then 1 else 0
    ambiguous := stats.ambiguous + if 0 < ties then 1 else 0 }

/-- Parses an utterance that has been counted already. -/
def parseCounted (parser : Parser) (tokens : List Token) :
    Log.Logging (Except ParseError ParseOutcome × Parser) := do
  let (result, evaluation) := interpretTokens parser.entry.rule tokens parser.session
  let parser ← parser.relayAll evaluation.notes.toList
  match result.bind outcomeOf with
  | .error error =>
      Log.emit (rejectionEvent error)
      let stats := { parser.stats with rejected := parser.stats.rejected + 1 }
      return (.error error, { parser with stats })
  | .ok outcome =>
      let stats := acceptedStats parser.stats parser.session evaluation.session outcome.ties
      if 0 < outcome.ties && parser.preferences.warnsOnAmbiguity then
        Log.emit (ambiguityEvent outcome.ties)
      Log.emit (acceptanceEvent outcome.action evaluation.session)
      return (.ok outcome, { parser with session := evaluation.session, stats })

/-- Parses one utterance, whose tokens end with the closing marker. -/
def parse (parser : Parser) (tokens : List Token) :
    Log.Logging (Except ParseError ParseOutcome × Parser) :=
  let stats := { parser.stats with utterances := parser.stats.utterances + 1 }
  let parser := { parser with stats }
  Log.withUtterance ⟨stats.utterances, parser.entry.name⟩ (parser.parseCounted tokens)

/-- Parses tokens as a nonterminal of any kind. The session is not affected. -/
def parseFragment (parser : Parser) (rule : Rule) (tokens : List Token) :
    Log.Logging (Except ParseError Value × Parser) := do
  let (result, evaluation) := interpretTokens rule tokens parser.session
  let parser ← parser.relayAll evaluation.notes.toList
  return (result.map Parsed.value, parser)

def logStats (parser : Parser) : Log.Logging Unit :=
  Log.emit <| (Log.Event.info .plainInfo "Parser statistics").withDetails [
    ("utterances", toString parser.stats.utterances),
    ("accepted", toString parser.stats.accepted),
    ("rejected", toString parser.stats.rejected),
    ("suppressed", toString parser.stats.suppressed),
    ("ambiguous", toString parser.stats.ambiguous)]

end Parser

/-- Parses one utterance in a session of its own. -/
def parseUtterance (stream : TokenStream) :
    Log.Logging (Except ParseError ParseOutcome) := do
  Log.emitDebug "Starting syntax analysis" [("tokens", toString stream.length)]
  let preferences := GrammarPreferences.ofEnvironment (← get).environment
  let (result, _) ← (Parser.ofPreferences preferences).parse stream.tokens
  return result

end SpokenKeys
