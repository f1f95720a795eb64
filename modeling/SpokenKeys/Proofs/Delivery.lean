import SpokenKeys.Log.Journal

/-!
What a computation that logs can do to the journal's service: it delivers
events, of which every sink receives those whose levels pass. Admission may
refuse an event and tagging adds details to it, but neither makes an event of
another code or level.
-/

namespace SpokenKeys.Log

/-- The sink after it has received events. -/
def Sink.receiveAll (events : List Event) (sink : Sink) : Sink :=
  events.foldl (fun sink event => sink.receive event) sink

namespace Service

/-- The events whose levels pass. -/
def passing (service : Service) (events : List Event) : List Event :=
  events.filter fun event => event.level.passes service.minLevel

/-- Every sink receives the events whose levels pass. -/
theorem foldl_log (service : Service) (events : List Event) :
    events.foldl log service =
      { service with
        sinks := service.sinks.map (Sink.receiveAll (service.passing events)) } := by
  induction events generalizing service with
  | nil =>
      have hsame : service.sinks.map (Sink.receiveAll []) = service.sinks := List.map_id _
      rw [List.foldl_nil, passing, List.filter_nil, hsame]
  | cons event rest ih =>
      have hpassing : service.passing (event :: rest) =
          if event.level.passes service.minLevel then event :: service.passing rest
          else service.passing rest := List.filter_cons
      rw [List.foldl_cons, ih, log, hpassing]
      split
      · rw [List.map_map]
        rfl
      · rfl

theorem passing_of_debug {service : Service} (h : service.minLevel = .debug)
    (events : List Event) : service.passing events = events := by
  refine List.filter_eq_self.mpr fun event _ => ?_
  rw [h]
  cases event.level <;> rfl

end Service

/-- The service after is the service before with more events, each of an allowed
code. -/
def Delivers (allowed : Code → Prop) (before after : Journal) : Prop :=
  ∃ events : List Event, (∀ event ∈ events, allowed event.code) ∧
    after.service? = before.service?.map fun service => events.foldl Service.log service

/-- Whatever the journal, the computation delivers events of allowed codes only. -/
def LogsOnly {α : Type} (allowed : Code → Prop) (computation : Logging α) : Prop :=
  ∀ journal, Delivers allowed journal (computation.run journal).2

variable {α β : Type} {allowed : Code → Prop} {before middle after : Journal} {event : Event}

theorem Delivers.of_service_eq (h : after.service? = before.service?) :
    Delivers allowed before after := by
  refine ⟨[], by simp, ?_⟩
  rw [h]
  cases before.service? <;> rfl

theorem Delivers.trans (hfirst : Delivers allowed before middle)
    (hsecond : Delivers allowed middle after) : Delivers allowed before after := by
  obtain ⟨front, hfront, hmiddle⟩ := hfirst
  obtain ⟨back, hback, hafter⟩ := hsecond
  refine ⟨front ++ back, ?_, ?_⟩
  · intro event hevent
    rcases List.mem_append.mp hevent with h | h
    · exact hfront event h
    · exact hback event h
  · rw [hafter, hmiddle]
    cases before.service? with
    | none => rfl
    | some service => simp

theorem Delivers.mono {wider : Code → Prop} (h : Delivers allowed before after)
    (hwider : ∀ code, allowed code → wider code) : Delivers wider before after := by
  obtain ⟨events, hevents, hservice⟩ := h
  exact ⟨events, fun event hevent => hwider _ (hevents event hevent), hservice⟩

@[simp] theorem Event.withDetail_code (event : Event) (key value : String) :
    (event.withDetail key value).code = event.code := rfl

theorem Event.withDetails_eq (event : Event) (added : List (String × String)) :
    ∃ details, event.withDetails added = { event with details } := by
  induction added generalizing event with
  | nil => exact ⟨event.details, rfl⟩
  | cons detail rest ih => exact ih (event.withDetail detail.1 detail.2)

@[simp] theorem Event.withDetails_code (event : Event) (details : List (String × String)) :
    (event.withDetails details).code = event.code := by
  obtain ⟨_, hevent⟩ := event.withDetails_eq details
  rw [hevent]

@[simp] theorem Event.atWord_code (event : Event) (wordNo : Nat) :
    (event.atWord wordNo).code = event.code := rfl

@[simp] theorem Event.make_code (level : Level) (code : Code) (message : String) :
    (Event.make level code message).code = code := rfl

namespace Journal

/-- A tag is details and nothing else. -/
theorem tag_eq (journal : Journal) (event : Event) :
    ∃ details, journal.tag event = { event with details } := by
  rw [tag]
  split
  · split
    · exact event.withDetails_eq _
    · exact ⟨event.details, rfl⟩
  · exact ⟨event.details, rfl⟩

@[simp] theorem tag_code (journal : Journal) (event : Event) :
    (journal.tag event).code = event.code := by
  obtain ⟨_, hevent⟩ := journal.tag_eq event
  rw [hevent]

@[simp] theorem tag_level (journal : Journal) (event : Event) :
    (journal.tag event).level = event.level := by
  obtain ⟨_, hevent⟩ := journal.tag_eq event
  rw [hevent]

theorem service?_allow (journal : Journal) (level : Level) :
    (journal.allow level).2.service? = journal.service? := by
  rw [allow]
  split
  · rfl
  · dsimp only
    split <;> rfl

theorem delivers_deliver (journal : Journal) (hallowed : allowed event.code) :
    Delivers allowed journal (journal.deliver event) :=
  ⟨[event], by simpa using hallowed, rfl⟩

theorem delivers_emit (journal : Journal) (hallowed : allowed event.code) :
    Delivers allowed journal (journal.emit event) := by
  have hservice := journal.service?_allow event.level
  rw [emit]
  split
  · dsimp only
    split
    · refine (Delivers.of_service_eq hservice).trans (delivers_deliver _ ?_)
      rw [tag_code]
      exact hallowed
    · exact Delivers.of_service_eq hservice
  · exact Delivers.of_service_eq rfl

end Journal

namespace LogsOnly

theorem pure (value : α) : LogsOnly allowed (pure value : Logging α) :=
  fun _ => Delivers.of_service_eq rfl

theorem bind {first : Logging α} {next : α → Logging β} (hfirst : LogsOnly allowed first)
    (hnext : ∀ value, LogsOnly allowed (next value)) : LogsOnly allowed (first >>= next) :=
  fun journal => (hfirst journal).trans (hnext _ _)

theorem map {first : Logging α} (change : α → β) (hfirst : LogsOnly allowed first) :
    LogsOnly allowed (change <$> first) :=
  fun journal => hfirst journal

theorem get : LogsOnly allowed (get : Logging Journal) := fun _ => Delivers.of_service_eq rfl

theorem emit (hallowed : allowed event.code) : LogsOnly allowed (Log.emit event) :=
  fun journal => journal.delivers_emit hallowed

theorem emitDebug (hallowed : allowed .plainDebug) (message : String)
    (details : List (String × String)) : LogsOnly allowed (Log.emitDebug message details) := by
  refine get.bind fun journal => ?_
  split
  · apply emit
    rw [Event.withDetails_code]
    exact hallowed
  · exact pure _

theorem modify {change : Journal → Journal}
    (h : ∀ journal, Delivers allowed journal (change journal)) :
    LogsOnly allowed (modify change : Logging Unit) := h

theorem withUtterance (hallowed : allowed .plainWarning) (utterance : Utterance)
    {body : Logging α} (hbody : LogsOnly allowed body) :
    LogsOnly allowed (Log.withUtterance utterance body) := by
  rw [Log.withUtterance]
  refine bind (modify fun _ => Delivers.of_service_eq rfl) fun _ => ?_
  refine bind hbody fun result => bind get fun journal => ?_
  refine bind (modify fun _ => Delivers.of_service_eq rfl) fun _ => ?_
  dsimp only
  split
  · refine bind (modify fun journal => journal.delivers_deliver ?_) fun _ => pure _
    rw [Journal.limitWarning, Event.withDetails_code]
    exact hallowed
  · exact pure _

end LogsOnly

end SpokenKeys.Log
