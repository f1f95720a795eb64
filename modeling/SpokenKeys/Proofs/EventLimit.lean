import Mathlib.Data.List.Induction
import SpokenKeys.Proofs.TaggedEvents

/-!
How many events of an utterance are kept. Errors always are. Of the other events those
are kept before which the utterance had fewer than its limit, and the number of the rest
is reported at its end. What is kept of one utterance does not depend on others, nor on
the service that keeps it.
-/

namespace SpokenKeys.Log

/-- Number of the events that are not errors. Only these are limited. -/
def limitedCount (events : List Event) : Nat := events.countP fun event => !event.isError

/-- What is kept of events, in their order: the errors, and the others that stand after
fewer such than the limit. -/
def retained (limit : Nat) (events : List Event) : List Event :=
  (events.zipIdx.filter fun (event, place) =>
    event.isError || limitedCount (events.take place) < limit).map Prod.fst

section Retained

variable {limit : Nat} {events : List Event}

theorem limitedCount_append (events more : List Event) :
    limitedCount (events ++ more) = limitedCount events + limitedCount more :=
  List.countP_append

theorem limitedCount_concat (events : List Event) (event : Event) :
    limitedCount (events ++ [event]) = limitedCount events + if event.isError then 0 else 1 := by
  rw [limitedCount_append, limitedCount, limitedCount, List.countP_singleton]
  cases event.isError <;> rfl

/-- Whether an event is kept has nothing to do with what comes after it. -/
theorem retained_concat (limit : Nat) (events : List Event) (event : Event) :
    retained limit (events ++ [event]) = retained limit events ++
      if event.isError || limitedCount events < limit then [event] else [] := by
  -- The last event stands after all the places that the others are kept for.
  have hfront : events.zipIdx.filter (fun (other, place) =>
      other.isError || limitedCount ((events ++ [event]).take place) < limit) =
      events.zipIdx.filter fun (other, place) =>
        other.isError || limitedCount (events.take place) < limit := by
    refine List.filter_congr fun (other, place) hmem => ?_
    have hplace : place ≤ events.length :=
      Nat.le_of_lt (List.snd_lt_of_mem_zipIdx hmem)
    dsimp only
    rw [List.take_append_of_le_length hplace]
  rw [retained, List.zipIdx_append, List.filter_append, List.map_append, hfront, retained]
  congr 1
  rw [List.zipIdx_singleton, Nat.zero_add, List.filter_singleton]
  dsimp only
  rw [List.take_left]
  cases event.isError || decide (limitedCount events < limit) <;> rfl

theorem retained_sublist (limit : Nat) (events : List Event) :
    (retained limit events).Sublist events := by
  have h := (List.filter_sublist (l := events.zipIdx) (p := fun (event, place) =>
    event.isError || limitedCount (events.take place) < limit)).map Prod.fst
  rwa [List.zipIdx_map_fst] at h

/-- No error is left out. -/
theorem filter_isError_retained (limit : Nat) (events : List Event) :
    (retained limit events).filter Event.isError = events.filter Event.isError := by
  induction events using List.reverseRecOn with
  | nil => rfl
  | append_singleton events event ih =>
      rw [retained_concat, List.filter_append, ih, List.filter_append]
      congr 1
      cases herror : event.isError with
      | true => rfl
      | false =>
          rw [List.filter_cons_of_neg (by simp [herror]), List.filter_nil]
          split <;> simp [herror]

/-- Of the other events the first are kept. -/
theorem filter_limited_retained (limit : Nat) (events : List Event) :
    (retained limit events).filter (fun event => !event.isError) =
      (events.filter fun event => !event.isError).take limit := by
  induction events using List.reverseRecOn with
  | nil => exact List.take_nil.symm
  | append_singleton events event ih =>
      have hlength : (events.filter fun event => !event.isError).length = limitedCount events :=
        List.countP_eq_length_filter.symm
      rw [retained_concat, List.filter_append, ih, List.filter_append, List.take_append, hlength]
      congr 1
      cases herror : event.isError with
      | true => simp [herror]
      | false =>
          by_cases hroom : limitedCount events < limit
          · obtain ⟨room, hlimit⟩ := Nat.exists_eq_add_of_lt hroom
            have hleft : limit - limitedCount events = room + 1 := by omega
            simp [herror, hroom, hleft]
          · have hleft : limit - limitedCount events = 0 := by omega
            simp [herror, hroom, hleft]

/-- Within the limit everything is kept. -/
theorem retained_of_le (h : limitedCount events ≤ limit) : retained limit events = events := by
  induction events using List.reverseRecOn with
  | nil => rfl
  | append_singleton events event ih =>
      rw [limitedCount_concat] at h
      rw [retained_concat, ih (Nat.le_of_add_right_le h)]
      cases herror : event.isError with
      | true => rfl
      | false =>
          rw [herror, if_neg Bool.false_ne_true] at h
          have hroom : limitedCount events < limit := h
          rw [Bool.false_or, if_pos (decide_eq_true hroom)]

theorem limitedCount_retained (limit : Nat) (events : List Event) :
    limitedCount (retained limit events) = min limit (limitedCount events) := by
  rw [limitedCount, List.countP_eq_length_filter, filter_limited_retained, List.length_take,
    limitedCount, List.countP_eq_length_filter]

theorem retained_min (limit : Nat) (events : List Event) :
    retained (min limit (limitedCount events)) events = retained limit events := by
  rcases Nat.le_total limit (limitedCount events) with h | h
  · rw [Nat.min_eq_left h]
  · rw [Nat.min_eq_right h, retained_of_le h, retained_of_le (Nat.le_refl _)]

end Retained

/-- The events are emitted one after the other. -/
def emitAll (events : List Event) : Logging Unit := forM events emit

theorem emitAll_snd (events : List Event) (journal : Journal) :
    ((emitAll events).run journal).2 = events.foldl Journal.emit journal := by
  induction events generalizing journal with
  | nil => rfl
  | cons event rest ih =>
      rw [emitAll, List.forM_cons]
      exact ih (journal.emit event)

/-- What is told at the end of an utterance of events that were refused in it: one
warning that says how many they were. -/
def refusalReport (number refused : Nat) : List Event :=
  if 0 < refused then
    [{ level := .warning
       code := .plainWarning
       message := "Per-utterance log event limit reached"
       details := [("dropped", toString refused), ("utterance", toString number)] }]
  else []

theorem refusalReport_eq (number refused : Nat) :
    refusalReport number refused =
      if 0 < refused then [Journal.limitWarning number refused] else [] := by
  have hwarning : Journal.limitWarning number refused =
      { level := .warning
        code := .plainWarning
        message := "Per-utterance log event limit reached"
        details := [("dropped", toString refused), ("utterance", toString number)] } := by
    have hshort : "Per-utterance log event limit reached".utf8ByteSize ≤ Limits.messageBytes := by
      decide
    have horder : "dropped" < "utterance" := by decide
    rw [Journal.limitWarning, Event.warning, Event.make, cutMessage, if_pos hshort]
    simp [Event.withDetail, Details.insert, horder]
  rw [refusalReport, hwarning]

namespace Journal

/-- The journal after events of the utterance. -/
def having (journal : Journal) (events : List Event) : Journal :=
  { journal with
    asked := limitedCount events
    dropped := limitedCount events - Limits.utteranceEvents }

/-- One more event of the utterance. -/
theorem allow_having {journal : Journal} {utterance : Utterance}
    (h : journal.utterance? = some utterance) (events : List Event) (event : Event) :
    (journal.having events).allow event.level =
      (event.isError || limitedCount events < Limits.utteranceEvents,
        journal.having (events ++ [event])) := by
  have hinside : (journal.having events).utterance? ≠ none := by
    rw [having, h]
    exact Option.some_ne_none utterance
  unfold allow
  by_cases herror : event.level = .error
  · have hisError : event.isError = true := beq_iff_eq.mpr herror
    rw [if_pos (.inl herror), hisError, having, having, limitedCount_concat, hisError]
    rfl
  · have hisError : event.isError = false := beq_eq_false_iff_ne.mpr herror
    rw [if_neg (not_or.mpr ⟨herror, hinside⟩), having, having, limitedCount_concat, hisError]
    dsimp only
    by_cases hroom : limitedCount events < Limits.utteranceEvents
    · have hfull : ¬ Limits.utteranceEvents < limitedCount events + 1 := by omega
      have hdropped : limitedCount events - Limits.utteranceEvents =
          limitedCount events + 1 - Limits.utteranceEvents := by omega
      simp [hfull, hroom, hdropped]
    · have hfull : Limits.utteranceEvents < limitedCount events + 1 := by omega
      have hdropped : limitedCount events - Limits.utteranceEvents + 1 =
          limitedCount events + 1 - Limits.utteranceEvents := by omega
      simp [hfull, hroom, hdropped]

end Journal

namespace Told

/-- The sinks of any service receive what is told, as far as it passes. -/
theorem received {α : Type} {body : Logging α} {before after : Journal} {value : α}
    {events : List Event} (h : Told body before value events after) (service : Service) :
    (body.run (before.serving service)).2 =
      after.serving
        { service with
          sinks := service.sinks.map (Sink.receiveAll (service.passing events)) } := by
  rw [h service, Service.foldl_log]

/-- What is told of the events of an utterance are those that are kept, as they are
tagged. -/
theorem emitAll_inside {journal : Journal} {utterance : Utterance}
    (h : journal.utterance? = some utterance) (events : List Event) :
    Told (emitAll events) (journal.having []) ()
      ((retained Limits.utteranceEvents events).map journal.tag) (journal.having events) := by
  induction events using List.reverseRecOn with
  | nil => exact .pure () _
  | append_singleton events event ih =>
      have hemit := Told.emit (journal.having events) event
      rw [Journal.allow_having h] at hemit
      have htold : (retained Limits.utteranceEvents (events ++ [event])).map journal.tag =
          (retained Limits.utteranceEvents events).map journal.tag ++
            ((if event.isError || limitedCount events < Limits.utteranceEvents then
              [journal.tag event] else []) ++ []) := by
        rw [retained_concat, List.map_append, List.append_nil]
        split <;> rfl
      rw [emitAll, List.forM_append, htold]
      exact ih.bind (hemit.bind (.pure () _))

/-- Events outside of any utterance are told as they are. -/
theorem emitAll_outside {journal : Journal} (h : journal.utterance? = none)
    (events : List Event) : Told (emitAll events) journal () events journal := by
  induction events with
  | nil => exact .pure () journal
  | cons event rest ih =>
      rw [emitAll, List.forM_cons]
      exact (emit_outside h event).bind ih

end Told

/-- What is told of an utterance: the events that are kept, with its tags, and at the end
how many were refused. -/
def Utterance.told (utterance : Utterance) (journal : Journal) (events : List Event) :
    List Event :=
  (retained Limits.utteranceEvents events).map (journal.beginUtterance utterance).tag ++
    refusalReport utterance.number (limitedCount events - Limits.utteranceEvents)

theorem Utterance.told_of_events (utterance : Utterance) (journal : Journal)
    (events : List Event) :
    Told (withUtterance utterance (emitAll events)) journal () (utterance.told journal events)
      journal.endUtterance := by
  have hinside : (journal.beginUtterance utterance).utterance? = some utterance := rfl
  rw [Utterance.told, refusalReport_eq]
  exact (Told.emitAll_inside hinside events).withUtterance

/-- A part of a program's run: events outside of any utterance, or those of one. -/
inductive Episode where
  | outside (events : List Event)
  | inside (utterance : Utterance) (events : List Event)

namespace Episode

def run : Episode → Logging Unit
  | .outside events => emitAll events
  | .inside utterance events => withUtterance utterance (emitAll events)

def told (journal : Journal) : Episode → List Event
  | .outside events => events
  | .inside utterance events => utterance.told journal events

theorem told_of_run (journal : Journal) (episode : Episode) :
    Told episode.run journal.endUtterance () (episode.told journal) journal.endUtterance := by
  cases episode with
  | outside events => exact Told.emitAll_outside rfl events
  | inside utterance events => exact utterance.told_of_events journal.endUtterance events

/-- Each part of a run is told as if there were no other. -/
theorem told_of_runs (journal : Journal) (episodes : List Episode) :
    Told (forM episodes run) journal.endUtterance () (episodes.flatMap (told journal))
      journal.endUtterance := by
  induction episodes with
  | nil => exact .pure () _
  | cons episode rest ih =>
      rw [List.forM_cons]
      exact (episode.told_of_run journal).bind ih

end Episode

/-- Let the processing of an utterance emit events and touch the journal in no other way.
Of these events a service that passes all on receives, in their order, the errors and the
first of the others, as many as the limit allows, and if there were more, one warning
with the number of the utterance and of the events that were refused. After it the
journal is outside of any utterance and has counted nothing. So in a run what is received
of an utterance depends on its own events only, and of the events outside of utterances
all are received. -/
theorem utterance_events_limited_exactly :
    (∀ (α : Type) (body : Logging α) (journal : Journal) (sinks : List Sink)
        (utterance : Utterance) (events : List Event),
      let before := journal.serving { minLevel := .debug, sinks }
      let kept := retained Limits.utteranceEvents events
      let refused := limitedCount events - Limits.utteranceEvents
      let received := kept.map (journal.beginUtterance utterance).tag ++
        refusalReport utterance.number refused
      (body.run (before.beginUtterance utterance)).2 =
        events.foldl Journal.emit (before.beginUtterance utterance) →
      kept.Sublist events ∧
      kept.filter Event.isError = events.filter Event.isError ∧
      kept.filter (fun event => !event.isError) =
        (events.filter fun event => !event.isError).take Limits.utteranceEvents ∧
      ((withUtterance utterance body).run before).2 =
        { journal with
          service? := some { minLevel := .debug, sinks := sinks.map (Sink.receiveAll received) }
          utterance? := none
          asked := 0
          dropped := 0 }) ∧
    ∀ (journal : Journal) (sinks : List Sink) (episodes : List Episode),
      let received := episodes.flatMap (Episode.told journal)
      ((forM episodes Episode.run : Logging Unit).run
          (journal.endUtterance.serving { minLevel := .debug, sinks })).2 =
        journal.endUtterance.serving
          { minLevel := .debug, sinks := sinks.map (Sink.receiveAll received) } := by
  refine ⟨fun α body journal sinks utterance events => ?_, fun journal sinks episodes => ?_⟩
  · intro before kept refused received hbody
    refine ⟨retained_sublist _ events, filter_isError_retained _ events,
      filter_limited_retained _ events, ?_⟩
    -- The journal does not tell the computation from one that emits the events alone.
    have hsame : ((withUtterance utterance body).run before).2 =
        ((withUtterance utterance (emitAll events)).run before).2 := by
      rw [withUtterance_snd, withUtterance_snd, hbody, emitAll_snd]
    rw [hsame, (utterance.told_of_events journal events).received, Service.passing_of_debug rfl]
    rfl
  · intro received
    rw [(Episode.told_of_runs journal episodes).received, Service.passing_of_debug rfl]

/-- The second event is emitted because the first one was counted. -/
theorem counted_event_and_error_received :
    let service : Service := { minLevel := .debug, sinks := [.memory (.ofCapacity 2)] }
    let before := ({} : Journal).serving service
    let utterance : Utterance := ⟨1, "single_input"⟩
    let first := Event.info .plainInfo "first"
    let second := Event.error .unexpectedToken "second"
    let body : Logging Nat := do
      emit first
      let journal ← get
      if 0 < journal.asked then emit second
      return journal.asked
    (body.run (before.beginUtterance utterance)).2 =
        [first, second].foldl Journal.emit (before.beginUtterance utterance) ∧
      ((withUtterance utterance body).run before).2.events.map Event.message =
        ["first", "second"] := by
  intro service before utterance first second body
  have hbody : (body.run (before.beginUtterance utterance)).2 =
      [first, second].foldl Journal.emit (before.beginUtterance utterance) := rfl
  have hcount : limitedCount [first, second] = 1 := rfl
  have hkept : retained Limits.utteranceEvents [first, second] = [first, second] :=
    retained_of_le (by decide)
  have hnone : refusalReport utterance.number (1 - Limits.utteranceEvents) = [] := if_neg (by decide)
  obtain ⟨-, -, -, hafter⟩ := utterance_events_limited_exactly.1 Nat body {} service.sinks utterance
    [first, second] hbody
  refine ⟨hbody, ?_⟩
  rw [hafter, hkept, hcount, hnone]
  rfl

end SpokenKeys.Log
