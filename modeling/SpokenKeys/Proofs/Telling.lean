import SpokenKeys.Proofs.Delivery
import SpokenKeys.Proofs.Interpretation

/-!
What is told while an utterance is parsed, by the codes of the events. The
evaluation of a derivation notes steps and turns of the session; the parser
passes the notes on and adds how the utterance ended.
-/

namespace SpokenKeys

open Log (Code LogsOnly)

def Note.code : Note → Code
  | .step told | .event told => told.code

def evaluationCodes : List Code :=
  [.reduction, .chartSummary, .inputWhileAsleep, .fellAsleep, .wokeUp]

def NotesWithin (notes : Array Note) : Prop :=
  ∀ note ∈ notes, note.code ∈ evaluationCodes

theorem NotesWithin.push {notes : Array Note} {note : Note} (h : NotesWithin notes)
    (hcode : note.code ∈ evaluationCodes) : NotesWithin (notes.push note) := by
  intro other hother
  rcases Array.mem_push.mp hother with hmem | rfl
  · exact h other hmem
  · exact hcode

/-- The computation adds notes of these codes only. -/
def TellsWithin {α : Type} (computation : Evaluating α) : Prop :=
  ∀ state, NotesWithin state.notes → NotesWithin (computation.run.run state).2.notes

namespace Meaning

theorem gate_events (session : Session) (action : Action) :
    ∀ event ∈ (gate session action).events, event.code ∈ evaluationCodes := by
  intro event hevent
  rw [gate] at hevent
  split at hevent
  · dsimp only at hevent
    split at hevent
    · cases hevent
    · rw [List.mem_singleton] at hevent
      rw [hevent, Log.Event.withDetail_code]
      exact List.mem_of_elem_eq_true rfl
  · cases hevent

/-- The events that meanings call for say how the session turned. -/
theorem apply_events {meaning : Meaning} {session : Session} {values : List Value}
    {outcome : Outcome} (h : meaning.apply session values = .ok outcome) :
    ∀ event ∈ outcome.events, event.code ∈ evaluationCodes := by
  cases meaning with
  | input =>
      rw [apply, applyInput.eq_def] at h
      split at h
      · cases h
      · split at h
        · cases h
          simp
        · cases h
      · cases h
        exact gate_events _ _
      · cases h
  | tolerantInput =>
      rw [apply, applyTolerantInput.eq_def] at h
      split at h
      · cases h
      · split at h
        · cases h
          simp
        · cases h
      · obtain ⟨action, -, hgate⟩ := eq_ok_of_bind h
        cases hgate
        exact gate_events _ _
      · cases h
  | sleepPhrase =>
      rw [apply, applySleepPhrase] at h
      obtain ⟨tokens, -, hphrase⟩ := eq_ok_of_bind h
      intro event hevent
      split at hphrase
      · cases hphrase
      · split at hphrase
        all_goals
          cases hphrase
          rw [List.mem_singleton.mp hevent]
          decide
  | _ =>
      obtain ⟨value, -, hvalue⟩ := eq_ok_of_bind h
      cases hvalue
      simp

end Meaning

namespace TellsWithin

variable {α β : Type}

theorem bind {first : Evaluating α} {next : α → Evaluating β} (hfirst : TellsWithin first)
    (hnext : ∀ value, TellsWithin (next value)) : TellsWithin (first >>= next) := by
  intro state hstate
  have hafter := hfirst state hstate
  cases hrun : first.run.run state with
  | mk result after =>
      rw [hrun] at hafter
      cases result with
      | error error =>
          rw [Evaluating.run_bind_error hrun]
          exact hafter
      | ok value =>
          rw [Evaluating.run_bind_ok hrun]
          exact hnext value after hafter

theorem reduce (grammar : Grammar) (id start stop : Nat) (values : List Value) :
    TellsWithin (Evaluation.reduce grammar id start stop values) := by
  intro state hstate
  cases hproduction : grammar.production? id with
  | none =>
      rw [Evaluation.reduce, hproduction]
      exact hstate
  | some production =>
      have hnoted : NotesWithin (state.reducing production start stop).notes :=
        hstate.push (List.mem_of_elem_eq_true rfl)
      rw [Evaluation.reduce_run hproduction]
      split
      · exact hnoted
      next outcome houtcome =>
        intro note hnote
        rcases Array.mem_append.mp hnote with hmem | hmem
        · exact hnoted note hmem
        · obtain ⟨event, hevent, rfl⟩ := List.mem_map.mp (List.mem_toArray.mp hmem)
          exact Meaning.apply_events houtcome event hevent

mutual

theorem evaluate (grammar : Grammar) (tokens : Array Token) :
    ∀ tree : Derivation, TellsWithin (Evaluation.evaluate grammar tokens tree)
  | .leaf index => by
      rw [Evaluation.evaluate]
      split
      · exact fun _ h => h
      · exact fun _ h => h
  | .node id start stop children => by
      rw [Evaluation.evaluate]
      exact bind (evaluateList grammar tokens children) fun values =>
        reduce grammar id start stop values

theorem evaluateList (grammar : Grammar) (tokens : Array Token) :
    ∀ trees : List Derivation, TellsWithin (Evaluation.evaluateList grammar tokens trees)
  | [] => fun _ h => h
  | child :: rest => by
      rw [Evaluation.evaluateList]
      refine bind (evaluate grammar tokens child) fun value => ?_
      exact bind (evaluateList grammar tokens rest) fun values => fun _ h => h

end

end TellsWithin

namespace Parser

theorem interpretTokens_notes (start : Rule) (tokens : List Token) (session : Session) :
    NotesWithin (interpretTokens start tokens session).2.notes := by
  rw [interpretTokens, interpret_run]
  have hempty : NotesWithin #[] := fun note hnote => absurd hnote (Array.not_mem_empty note)
  cases chosen Commands.grammar start tokens with
  | error error => exact hempty
  | ok choice =>
      obtain ⟨chart, tree, ties⟩ := choice
      have hchosen : NotesWithin
          (chosenState start chart ties (Evaluation.mk session 0 #[])).notes := by
        apply hempty.push
        rw [Note.code, Evaluation.summaryEvent, Log.Event.withDetails_code]
        decide
      have hafter := TellsWithin.evaluate Commands.grammar tokens.toArray tree _ hchosen
      rw [afterChoice]
      split
      next hrun =>
        rw [hrun] at hafter
        exact hafter
      next hrun =>
        rw [hrun] at hafter
        exact hafter

def loggedCodes : List Code :=
  evaluationCodes ++ [.emptyTokenStream, .utteranceTooLong, .unexpectedToken,
    .internalParserError, .maxDerivationDepth, .parsed, .plainWarning]

variable {allowed : Code → Prop}

theorem relayAll_logs (hallowed : ∀ code ∈ evaluationCodes, allowed code) (parser : Parser)
    {notes : List Note} (hnotes : ∀ note ∈ notes, note.code ∈ evaluationCodes) :
    LogsOnly allowed (parser.relayAll notes) := by
  induction notes generalizing parser with
  | nil => exact LogsOnly.pure _
  | cons note rest ih =>
      rw [relayAll, List.foldlM_cons]
      refine LogsOnly.bind ?_ fun parser => ih parser fun other hother =>
        hnotes other (List.mem_cons_of_mem _ hother)
      have hcode := hallowed _ (hnotes note List.mem_cons_self)
      cases note with
      | step event =>
          rw [relay]
          split
          · exact LogsOnly.bind (LogsOnly.emit hcode) fun _ => LogsOnly.pure _
          · exact LogsOnly.pure _
      | event event => exact LogsOnly.bind (LogsOnly.emit hcode) fun _ => LogsOnly.pure _

theorem rejectionEvent_code (error : ParseError) : (rejectionEvent error).code = error.code := by
  rw [rejectionEvent]
  split <;> rfl

theorem code_mem (error : ParseError) : error.code ∈ loggedCodes := by
  cases error <;> simp [ParseError.code, loggedCodes]

theorem outcomeOf_ties {parsed : Parsed} {outcome : ParseOutcome}
    (h : outcomeOf parsed = .ok outcome) : outcome.ties = parsed.ties := by
  rw [outcomeOf] at h
  split at h
  · cases h
    rfl
  · cases h

/-- Parsing an utterance whose derivation leaves no ties logs nothing but notes
of the evaluation, how the utterance ended, and what was refused. -/
theorem parse_logs (hallowed : ∀ code ∈ loggedCodes, allowed code) (parser : Parser)
    (tokens : List Token)
    (hties : ∀ parsed, (interpretTokens parser.entry.rule tokens parser.session).1 = .ok parsed →
      parsed.ties = 0) :
    LogsOnly allowed (parser.parse tokens) := by
  have hnotes := interpretTokens_notes parser.entry.rule tokens parser.session
  rw [parse]
  refine LogsOnly.withUtterance (hallowed _ (by decide)) _ ?_
  rw [parseCounted]
  dsimp only
  generalize interpretTokens parser.entry.rule tokens parser.session = interpreted at *
  obtain ⟨result, evaluation⟩ := interpreted
  refine LogsOnly.bind (relayAll_logs (fun code hcode => hallowed code
    (List.mem_append_left _ hcode)) _ fun note hnote => hnotes note (Array.mem_def.mpr hnote))
    fun parser => ?_
  dsimp only
  cases houtcome : result.bind outcomeOf with
  | error error =>
      refine LogsOnly.bind (LogsOnly.emit ?_) fun _ => LogsOnly.pure _
      rw [rejectionEvent_code]
      exact hallowed _ (code_mem error)
  | ok outcome =>
      obtain ⟨parsed, hparsed, hof⟩ := eq_ok_of_bind houtcome
      have hzero : outcome.ties = 0 := (outcomeOf_ties hof).trans (hties parsed hparsed)
      simp only [hzero, Nat.lt_irrefl, decide_false, Bool.false_and]
      refine LogsOnly.bind (LogsOnly.emit ?_) fun _ => LogsOnly.pure _
      rw [acceptanceEvent, Log.Event.withDetails_code]
      exact hallowed _ (by decide)

theorem parseFragment_logs (hallowed : ∀ code ∈ loggedCodes, allowed code) (parser : Parser)
    (rule : Rule) (tokens : List Token) :
    LogsOnly allowed (parser.parseFragment rule tokens) := by
  have hnotes := interpretTokens_notes rule tokens parser.session
  rw [parseFragment]
  exact LogsOnly.bind (relayAll_logs (fun code hcode => hallowed code
    (List.mem_append_left _ hcode)) _ fun note hnote => hnotes note (Array.mem_def.mpr hnote))
    fun parser => LogsOnly.pure _

end Parser

end SpokenKeys
