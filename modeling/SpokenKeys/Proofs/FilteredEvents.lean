import SpokenKeys.Proofs.EventLimit

/-!
Events that a service filters out are counted like all others. An event is admitted
before the service looks at its level, so those that no sink receives use up the limit of
the utterance, and events that a sink would have received are refused for them.
-/

namespace SpokenKeys.Log

namespace Service

variable (service : Service)

theorem passing_append (events more : List Event) :
    service.passing (events ++ more) = service.passing events ++ service.passing more :=
  List.filter_append ..

theorem passing_concat (events : List Event) (event : Event) :
    service.passing (events ++ [event]) =
      service.passing events ++
        if event.level.passes service.minLevel then [event] else [] := by
  rw [passing_append]
  congr 1
  exact List.filter_cons

theorem passing_tagged (journal : Journal) (events : List Event) :
    service.passing (events.map journal.tag) = (service.passing events).map journal.tag := by
  have hlevels : (fun event => event.level.passes service.minLevel) ∘ journal.tag =
      fun event : Event => event.level.passes service.minLevel :=
    funext fun event => by rw [Function.comp_apply, Journal.tag_level]
  rw [passing, List.filter_map, hlevels, passing]

/-- Errors pass at every level. -/
theorem passes_of_isError {event : Event} (h : event.isError = true) :
    event.level.passes service.minLevel = true := by
  rw [beq_iff_eq.mp h]
  exact decide_eq_true (Nat.zero_le _)

theorem limitedCount_passing_retained_le (limit : Nat) (events : List Event) :
    limitedCount (service.passing (retained limit events)) ≤
      min limit (limitedCount (service.passing events)) := by
  have hkept : (service.passing (retained limit events)).Sublist (retained limit events) :=
    List.filter_sublist
  have hpassing : (service.passing (retained limit events)).Sublist (service.passing events) :=
    (retained_sublist limit events).filter _
  refine Nat.le_min.mpr ⟨hkept.countP_le.trans ?_, hpassing.countP_le⟩
  exact (limitedCount_retained limit events).trans_le (Nat.min_le_left _ _)

/-- The events that pass are kept up to a limit of their own, the number of places that
the events that do not pass leave to them. -/
theorem passing_retained (limit : Nat) (events : List Event) :
    service.passing (retained limit events) =
      retained (limitedCount (service.passing (retained limit events)))
        (service.passing events) := by
  induction events using List.reverseRecOn with
  | nil => rfl
  | append_singleton events event ih =>
      have hplaces := (service.limitedCount_passing_retained_le limit events).trans
        (Nat.min_le_right _ _)
      rw [retained_concat, service.passing_concat events]
      cases herror : event.isError with
      | true =>
          have hpasses := service.passes_of_isError herror
          have hkept : service.passing (retained limit events ++ [event]) =
              service.passing (retained limit events) ++ [event] := by
            rw [passing_concat, if_pos hpasses]
          rw [Bool.true_or, if_pos rfl, if_pos hpasses, hkept, limitedCount_concat, herror,
            if_pos rfl, Nat.add_zero, retained_concat, herror, Bool.true_or, if_pos rfl, ← ih]
      | false =>
          by_cases hroom : limitedCount events < limit
          · -- Nothing is refused up to the event.
            have hall : retained limit events = events := retained_of_le (Nat.le_of_lt hroom)
            have hpassing : service.passing (events ++ [event]) = service.passing events ++ _ :=
              service.passing_concat events event
            rw [Bool.false_or, if_pos (decide_eq_true hroom), hall, hpassing,
              retained_of_le (Nat.le_refl _)]
          · -- The event is refused, and there is no place for it among those that pass.
            have hrefused : service.passing (retained limit events ++ []) =
                service.passing (retained limit events) := by rw [List.append_nil]
            rw [Bool.false_or, if_neg (by simpa using hroom), hrefused]
            split
            · rw [retained_concat, herror, Bool.false_or,
                if_neg (by simpa using hplaces), List.append_nil, ← ih]
            · rw [List.append_nil, ← ih]

/-- They are those that the limit itself leaves of them exactly if none of them is refused
for an event that does not pass. -/
theorem passing_retained_iff (limit : Nat) (events : List Event) :
    service.passing (retained limit events) = retained limit (service.passing events) ↔
      limitedCount (service.passing (retained limit events)) =
        min limit (limitedCount (service.passing events)) := by
  constructor
  · intro h
    rw [h, limitedCount_retained]
  · intro h
    rw [service.passing_retained, h, retained_min]

theorem passing_refusalReport (number refused : Nat) :
    service.passing (refusalReport number refused) =
      if Level.warning.passes service.minLevel then refusalReport number refused else [] := by
  rw [refusalReport]
  split
  · exact service.passing_concat [] _
  · rw [ite_self]
    rfl

end Service

/-- Filtered events take nothing from the others: the events that pass are delivered up to
the limit itself, and refusals are reported only if so many pass that some are over it. -/
def Service.SparesOthers (service : Service) (number : Nat) (events : List Event) : Prop :=
  service.passing (retained Limits.utteranceEvents events) =
      retained Limits.utteranceEvents (service.passing events) ∧
    (service.passing (refusalReport number (limitedCount events - Limits.utteranceEvents)) ≠ [] →
      Limits.utteranceEvents < limitedCount (service.passing events))

/-- A service receives of an utterance the events whose levels pass among those that are
kept of all its events, and the report on those that are refused of all. So of the events
that pass the errors are delivered, and as many of the others as have a place before the
limit is reached, by events that pass or not. Filtered events take nothing from the others
exactly if these are as many as pass or as the limit allows, and if no warning is
delivered about refusals where the events that pass are within the limit. -/
theorem filtered_events_use_allowance (journal : Journal) (service : Service)
    (utterance : Utterance) (events : List Event) :
    let delivered := service.passing (retained Limits.utteranceEvents events)
    let deliverable := service.passing events
    let places := limitedCount delivered
    let refused := limitedCount events - Limits.utteranceEvents
    let received := delivered.map (journal.beginUtterance utterance).tag ++
      service.passing (refusalReport utterance.number refused)
    ((withUtterance utterance (emitAll events)).run (journal.serving service)).2 =
        journal.endUtterance.serving
          { service with sinks := service.sinks.map (Sink.receiveAll received) } ∧
      delivered = retained places deliverable ∧
      (service.SparesOthers utterance.number events ↔
        places = min Limits.utteranceEvents (limitedCount deliverable) ∧
          (limitedCount deliverable ≤ Limits.utteranceEvents →
            limitedCount events ≤ Limits.utteranceEvents ∨
              Level.warning.passes service.minLevel = false)) := by
  intro delivered deliverable places refused received
  refine ⟨?_, service.passing_retained _ events, ?_⟩
  · have hreceived : service.passing (utterance.told journal events) = received := by
      rw [Utterance.told, service.passing_append, service.passing_tagged]
    rw [(utterance.told_of_events journal events).received, hreceived]
  · have hreport : service.passing (refusalReport utterance.number refused) = [] ↔
        limitedCount events ≤ Limits.utteranceEvents ∨
          Level.warning.passes service.minLevel = false := by
      rw [service.passing_refusalReport, refusalReport]
      have hrefused : 0 < refused ↔ ¬ limitedCount events ≤ Limits.utteranceEvents :=
        Nat.sub_pos_iff_lt.trans Nat.not_le.symm
      by_cases hwithin : limitedCount events ≤ Limits.utteranceEvents
      · rw [if_neg (mt hrefused.mp (not_not.mpr hwithin)), ite_self]
        exact iff_of_true rfl (.inl hwithin)
      · rw [if_pos (hrefused.mpr hwithin), or_iff_right hwithin]
        cases Level.warning.passes service.minLevel with
        | false => exact iff_of_true rfl rfl
        | true => exact iff_of_false (List.cons_ne_nil _ _) (by decide)
    rw [Service.SparesOthers, service.passing_retained_iff, ← hreport]
    refine and_congr_right fun _ => ?_
    rw [← Nat.not_lt]
    exact not_imp_comm

/-- As many hidden events as the limit allows push out the one that would be seen, and
the warning that one was refused is seen instead. -/
theorem hidden_events_push_out_event :
    let service : Service := { minLevel := .info, sinks := [.memory (.ofCapacity 2)] }
    let utterance : Utterance := ⟨1, "single_input"⟩
    let hidden := List.replicate Limits.utteranceEvents (Event.debug .reduction "repeat ::= <empty>")
    let event := Event.info .parsed "Utterance parsed"
    let after := ((withUtterance utterance (emitAll (hidden ++ [event]))).run
      (({} : Journal).serving service)).2
    event.isError = false ∧ event.level.passes service.minLevel = true ∧
      service.passing hidden = [] ∧
      after.events = refusalReport 1 1 := by
  intro service utterance hidden event after
  have hnone : service.passing hidden = [] := by
    refine List.filter_eq_nil_iff.mpr fun other hmem => ?_
    rw [List.eq_of_mem_replicate hmem]
    decide
  have hcount : limitedCount hidden = Limits.utteranceEvents := by
    have hlimited : (!(Event.debug .reduction "repeat ::= <empty>").isError) = true := rfl
    rw [limitedCount, List.countP_replicate, if_pos hlimited]
  have hkept : retained Limits.utteranceEvents (hidden ++ [event]) = hidden := by
    rw [retained_concat, retained_of_le (Nat.le_of_eq hcount), hcount]
    exact List.append_nil _
  have hrefused : limitedCount (hidden ++ [event]) - Limits.utteranceEvents = 1 := by
    rw [limitedCount_concat, hcount]
    exact Nat.add_sub_cancel_left ..
  have htold : service.passing (utterance.told {} (hidden ++ [event])) = refusalReport 1 1 := by
    rw [Utterance.told, hkept, hrefused, service.passing_append, service.passing_tagged, hnone,
      service.passing_refusalReport]
    rfl
  refine ⟨rfl, rfl, hnone, ?_⟩
  dsimp only [after]
  rw [(utterance.told_of_events {} (hidden ++ [event])).received, htold]
  rfl

end SpokenKeys.Log
