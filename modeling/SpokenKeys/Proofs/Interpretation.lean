import SpokenKeys.Parser

/-!
An utterance is parsed in two steps: a derivation is chosen by the tokens alone,
and the derivation is evaluated in a session. What a parser returns and what it
becomes are functions of these steps and have nothing to do with the journal.
-/

namespace SpokenKeys

/-- The chart and the derivation by which tokens are evaluated. -/
def chosen (grammar : Grammar) (start : Rule) (tokens : List Token) :
    Except ParseError (Chart × Derivation × Nat) :=
  if tokens.isEmpty then .error .emptyStream
  else if Limits.tokens < tokens.length then .error (.tooLong tokens.length Limits.tokens)
  else
    match Chart.build grammar start tokens with
    | .error failure => .error (.ofFailure tokens failure)
    | .ok chart =>
        match chart.derive with
        | .error failure => .error (.ofFailure tokens failure)
        | .ok (derivation, ties) => .ok (chart, derivation, ties)

theorem chosen_eq_ok {grammar : Grammar} {start : Rule} {tokens : List Token} {chart : Chart}
    {tree : Derivation} {ties : Nat} (h : chosen grammar start tokens = .ok (chart, tree, ties)) :
    Chart.build grammar start tokens = .ok chart ∧ chart.derive = .ok (tree, ties) := by
  rw [chosen] at h
  split at h
  · cases h
  split at h
  · cases h
  cases hbuild : Chart.build grammar start tokens with
  | error failure =>
      rw [hbuild] at h
      cases h
  | ok built =>
      simp only [hbuild] at h
      cases hderive : built.derive with
      | error failure =>
          rw [hderive] at h
          cases h
      | ok result =>
          rw [hderive] at h
          cases h
          exact ⟨rfl, hderive⟩

/-- Nothing is chosen for no tokens or for too many. -/
theorem within_of_chosen {grammar : Grammar} {start : Rule} {tokens : List Token}
    {choice : Chart × Derivation × Nat} (h : chosen grammar start tokens = .ok choice) :
    tokens ≠ [] ∧ tokens.length ≤ Limits.tokens := by
  have hnonempty : tokens ≠ [] := by
    rintro rfl
    cases h
  refine ⟨hnonempty, Nat.not_lt.mp fun hlong => ?_⟩
  rw [chosen, if_neg (by simpa using hnonempty), if_pos hlong] at h
  cases h

def chosenState (start : Rule) (chart : Chart) (ties : Nat) (state : Evaluation) : Evaluation :=
  { state with
    notes := state.notes.push (.step (Evaluation.summaryEvent start chart.itemCount ties)) }

/-- The result and the state after the evaluation of a chosen derivation. -/
def afterChoice (grammar : Grammar) (start : Rule) (tokens : List Token) (state : Evaluation) :
    Except ParseError (Chart × Derivation × Nat) → Except ParseError Parsed × Evaluation
  | .error error => (.error error, state)
  | .ok (chart, derivation, ties) =>
      match (Evaluation.evaluate grammar tokens.toArray derivation).run.run
        (chosenState start chart ties state) with
      | (.error error, state) => (.error error, state)
      | (.ok value, state) => (.ok ⟨value, ties, state.reductions, chart.itemCount⟩, state)

theorem eq_ok_of_isOk {ε α : Type} {result : Except ε α} (h : result.isOk = true) :
    ∃ value, result = .ok value := by
  cases result with
  | error error => cases h
  | ok value => exact ⟨value, rfl⟩

theorem eq_ok_of_bind {ε α β : Type} {first : Except ε α} {next : α → Except ε β} {result : β}
    (h : (first >>= next) = .ok result) : ∃ value, first = .ok value ∧ next value = .ok result := by
  cases first with
  | error error => cases h
  | ok value => exact ⟨value, rfl, h⟩

namespace Evaluating

variable {α β : Type} {first : Evaluating α} {next : α → Evaluating β} {state after : Evaluation}

theorem run_bind_ok {value : α} (h : first.run.run state = (.ok value, after)) :
    (first >>= next).run.run state = (next value).run.run after := by
  rw [ExceptT.run_bind, StateT.run_bind, h]
  rfl

theorem run_bind_error {error : ParseError} (h : first.run.run state = (.error error, after)) :
    (first >>= next).run.run state = (.error error, after) := by
  rw [ExceptT.run_bind, StateT.run_bind, h]
  rfl

/-- A computation that ends well has two parts that do. -/
theorem exists_of_run_bind {result : β}
    (h : (first >>= next).run.run state = (.ok result, after)) :
    ∃ value middle, first.run.run state = (.ok value, middle) ∧
      (next value).run.run middle = (.ok result, after) := by
  cases hfirst : first.run.run state with
  | mk outcome middle =>
      cases outcome with
      | error error =>
          rw [run_bind_error hfirst] at h
          cases h
      | ok value =>
          rw [run_bind_ok hfirst] at h
          exact ⟨value, middle, rfl, h⟩

end Evaluating

namespace Evaluation

def reducing (state : Evaluation) (production : Production) (start stop : Nat) : Evaluation :=
  { state with
    reductions := state.reductions + 1
    notes := state.notes.push (.step (reductionEvent production start stop)) }

def reduced (state : Evaluation) (outcome : Meaning.Outcome) : Evaluation :=
  { state with
    session := outcome.session
    notes := state.notes ++ (outcome.events.map Note.event).toArray }

/-- One production of a derivation: its meaning is applied in the session so far. -/
theorem reduce_run {grammar : Grammar} {id : Nat} {production : Production}
    (hproduction : grammar.production? id = some production) (start stop : Nat)
    (values : List Value) (state : Evaluation) :
    (reduce grammar id start stop values).run.run state =
      match production.meaning.apply state.session values with
      | .error fault => (.error (.internal fault.message), state.reducing production start stop)
      | .ok outcome =>
          (.ok outcome.value, (state.reducing production start stop).reduced outcome) := by
  rw [reduce, hproduction]
  have hrun : ∀ result : Except Fault Meaning.Outcome,
      ((match result with
        | .error fault => throw (.internal fault.message)
        | .ok outcome => do
            modify fun state => { state with
              session := outcome.session
              notes := state.notes ++ (outcome.events.map Note.event).toArray }
            return outcome.value : Evaluating Value).run.run
        (state.reducing production start stop)) =
      match result with
      | .error fault => (.error (.internal fault.message), state.reducing production start stop)
      | .ok outcome =>
          (.ok outcome.value, (state.reducing production start stop).reduced outcome) := by
    intro result
    cases result <;> rfl
  exact hrun (production.meaning.apply state.session values)

end Evaluation

/-- Interpretation is the choice of a derivation and its evaluation. -/
theorem interpret_run (grammar : Grammar) (start : Rule) (tokens : List Token)
    (state : Evaluation) :
    (interpret grammar start tokens).run.run state =
      afterChoice grammar start tokens state (chosen grammar start tokens) := by
  rw [interpret, chosen]
  by_cases hempty : tokens.isEmpty = true
  · rw [if_pos hempty, if_pos hempty]
    rfl
  rw [if_neg hempty, if_neg hempty]
  by_cases hlong : Limits.tokens < tokens.length
  · rw [if_pos hlong, if_pos hlong]
    rfl
  rw [if_neg hlong, if_neg hlong]
  -- Neither guard throws.
  refine (Evaluating.run_bind_ok rfl).trans ((Evaluating.run_bind_ok rfl).trans ?_)
  cases Chart.build grammar start tokens with
  | error failure => rfl
  | ok chart =>
      dsimp only
      cases chart.derive with
      | error failure => rfl
      | ok result =>
          obtain ⟨tree, ties⟩ := result
          have htell : (Evaluation.tell
              (.step (Evaluation.summaryEvent start chart.itemCount ties)) :
              Evaluating Unit).run.run state = (.ok (), chosenState start chart ties state) := rfl
          refine (Evaluating.run_bind_ok htell).trans ?_
          dsimp only [afterChoice]
          cases h : (Evaluation.evaluate grammar tokens.toArray tree).run.run
              (chosenState start chart ties state) with
          | mk result after =>
              cases result with
              | error error => exact Evaluating.run_bind_error h
              | ok value => exact Evaluating.run_bind_ok h

namespace Parser

/-- The parser after notes: its trace has received the steps among them. -/
def traced (parser : Parser) (notes : List Note) : Parser :=
  { parser with
    trace? := parser.trace?.map fun trace => notes.foldl
      (fun trace note =>
        match note with
        | .step event => trace.record event
        | .event _ => trace)
      trace }

/-- What a parser returns for an utterance and what it becomes. -/
def heard (parser : Parser) (tokens : List Token) : Except ParseError ParseOutcome × Parser :=
  let (result, evaluation) := interpretTokens parser.entry.rule tokens parser.session
  let stats := { parser.stats with utterances := parser.stats.utterances + 1 }
  match result.bind outcomeOf with
  | .error error =>
      (.error error, { parser.traced evaluation.notes.toList with
        stats := { stats with rejected := stats.rejected + 1 } })
  | .ok outcome =>
      (.ok outcome, { parser.traced evaluation.notes.toList with
        session := evaluation.session
        stats := acceptedStats stats parser.session evaluation.session outcome.ties })

theorem bind_fst {α β : Type} (first : Log.Logging α) (next : α → Log.Logging β)
    (journal : Log.Journal) :
    ((first >>= next).run journal).1 =
      ((next (first.run journal).1).run (first.run journal).2).1 := rfl

theorem relay_fst (parser : Parser) (note : Note) (journal : Log.Journal) :
    ((parser.relay note).run journal).1 = parser.traced [note] := by
  cases parser with
  | mk entry session preferences trace? stats =>
      cases note with
      | event => cases trace? <;> rfl
      | step event =>
          simp only [relay]
          split <;> cases trace? <;> rfl

theorem traced_cons (parser : Parser) (note : Note) (rest : List Note) :
    (parser.traced [note]).traced rest = parser.traced (note :: rest) := by
  cases parser with
  | mk entry session preferences trace? stats => cases trace? <;> rfl

theorem relayAll_fst (parser : Parser) (notes : List Note) (journal : Log.Journal) :
    ((parser.relayAll notes).run journal).1 = parser.traced notes := by
  induction notes generalizing parser journal with
  | nil =>
      cases parser with
      | mk entry session preferences trace? stats => cases trace? <;> rfl
  | cons note rest ih =>
      rw [relayAll, List.foldlM_cons, bind_fst, relay_fst, ← relayAll, ih, traced_cons]

theorem withUtterance_fst {α : Type} (utterance : Log.Utterance) (body : Log.Logging α)
    (journal : Log.Journal) :
    ((Log.withUtterance utterance body).run journal).1 =
      (body.run (journal.beginUtterance utterance)).1 := by
  have hrun : ((Log.withUtterance utterance body).run journal).1 =
      ((do
        if 0 < (body.run (journal.beginUtterance utterance)).2.dropped then
          modify (·.deliver (Log.Journal.limitWarning utterance.number
            (body.run (journal.beginUtterance utterance)).2.dropped))
        return (body.run (journal.beginUtterance utterance)).1 : Log.Logging α).run
          (body.run (journal.beginUtterance utterance)).2.endUtterance).1 := rfl
  rw [hrun]
  split <;> rfl

/-- What a parser returns and becomes does not depend on the journal. -/
theorem parse_fst (parser : Parser) (tokens : List Token) (journal : Log.Journal) :
    ((parser.parse tokens).run journal).1 = parser.heard tokens := by
  rw [parse, withUtterance_fst, parseCounted, heard]
  generalize journal.beginUtterance _ = journal
  dsimp only
  generalize interpretTokens parser.entry.rule tokens parser.session = interpreted
  obtain ⟨result, evaluation⟩ := interpreted
  rw [bind_fst, relayAll_fst]
  dsimp only
  cases result.bind outcomeOf with
  | error error => rfl
  | ok outcome =>
      dsimp only
      split <;> rfl

theorem parseFragment_fst (parser : Parser) (rule : Rule) (tokens : List Token)
    (journal : Log.Journal) :
    ((parser.parseFragment rule tokens).run journal).1 =
      ((interpretTokens rule tokens parser.session).1.map Parsed.value,
        parser.traced (interpretTokens rule tokens parser.session).2.notes.toList) := by
  rw [parseFragment, bind_fst, relayAll_fst]
  rfl

end Parser

end SpokenKeys
