import SpokenKeys.Chart.Derivation
import SpokenKeys.Parse.Error

/-!
Evaluation of a derivation: the meanings of its productions are applied bottom
up, children from left to right. What is worth telling along the way is noted
in order; notes are either steps of the trace or events of the program's log.
-/

namespace SpokenKeys

/-- Something told while an utterance is parsed. -/
inductive Note where
  /-- A step of the derivation, of interest to whoever traces it. -/
  | step (event : Log.Event)
  /-- An event of the log. -/
  | event (event : Log.Event)
deriving DecidableEq, Repr

/-- What an evaluation has come to so far. -/
structure Evaluation where
  session : Session
  /-- Number of meanings applied. -/
  reductions : Nat := 0
  notes : Array Note := #[]

/-- A computation that evaluates a derivation. -/
abbrev Evaluating := ExceptT ParseError (StateM Evaluation)

namespace Evaluation

def tell (note : Note) : Evaluating Unit :=
  modify fun state => { state with notes := state.notes.push note }

/-- The trace event of a production over a span. -/
def reductionEvent (production : Production) (start stop : Nat) : Log.Event :=
  ((Log.Event.debug .reduction production.display).atWord start).withDetail
    "span" s!"{start}..{stop}"

/-- The trace event of a chosen derivation. -/
def summaryEvent (start : Rule) (items ties : Nat) : Log.Event :=
  (Log.Event.debug .chartSummary "Derivation chosen").withDetails
    [("start", start.name), ("items", toString items), ("ties", toString ties)]

/-- Applies the meaning of a production to the values of its symbols. -/
def reduce (grammar : Grammar) (id start stop : Nat) (values : List Value) :
    Evaluating Value := do
  match grammar.production? id with
  | none => throw (.internal s!"production {id} out of range")
  | some production =>
      tell (.step (reductionEvent production start stop))
      let state ← get
      set { state with reductions := state.reductions + 1 }
      match production.meaning.apply state.session values with
      | .error fault => throw (.internal fault.message)
      | .ok outcome =>
          modify fun state => { state with
            session := outcome.session
            notes := state.notes ++ (outcome.events.map Note.event).toArray }
          return outcome.value

mutual

/-- The value of a derivation. -/
def evaluate (grammar : Grammar) (tokens : Array Token) : Derivation → Evaluating Value
  | .leaf index =>
      match tokens[index]? with
      | some token => return .token token
      | none => throw (.internal s!"token index {index} out of range")
  | .node id start stop children => do
      let values ← evaluateList grammar tokens children
      reduce grammar id start stop values

def evaluateList (grammar : Grammar) (tokens : Array Token) :
    List Derivation → Evaluating (List Value)
  | [] => return []
  | child :: rest => do
      let value ← evaluate grammar tokens child
      let values ← evaluateList grammar tokens rest
      return value :: values

end

end Evaluation

/-- A parsed span of tokens. -/
structure Parsed where
  value : Value
  ties : Nat
  reductions : Nat
  chartItems : Nat

/-- Parses a token list as a nonterminal: chart, derivation, value. -/
def interpret (grammar : Grammar) (start : Rule) (tokens : List Token) : Evaluating Parsed := do
  if tokens.isEmpty then throw .emptyStream
  if Limits.tokens < tokens.length then throw (.tooLong tokens.length Limits.tokens)
  match Chart.build grammar start tokens with
  | .error failure => throw (.ofFailure tokens failure)
  | .ok chart =>
      match chart.derive with
      | .error failure => throw (.ofFailure tokens failure)
      | .ok (derivation, ties) =>
          Evaluation.tell (.step (Evaluation.summaryEvent start chart.itemCount ties))
          let value ← Evaluation.evaluate grammar tokens.toArray derivation
          let state ← get
          return ⟨value, ties, state.reductions, chart.itemCount⟩

end SpokenKeys
