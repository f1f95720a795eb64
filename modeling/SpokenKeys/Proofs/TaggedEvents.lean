import SpokenKeys.Proofs.Erasure

/-!
Which events a computation tells the service, and what they are tagged with. What is
told does not depend on the service, only on the settings, on the utterance that is being
processed and on how many of its events were admitted. An event that is told within an
utterance carries the utterance's number, whatever details it has of its own.
-/

namespace SpokenKeys.Log

namespace Details

theorem get?_cons (name key value : String) (rest : Details) :
    get? name ((key, value) :: rest) = if name = key then some value else get? name rest := by
  unfold get?
  rw [List.lookup_cons]
  by_cases hname : name = key
  · rw [if_pos hname, beq_iff_eq.mpr hname]
  · rw [if_neg hname, beq_false_of_ne hname]

/-- A detail that is inserted is found under its name, and the others are found as before. -/
theorem get?_insert (name key value : String) (details : Details) :
    (details.insert key value).get? name =
      if name = key then some value else details.get? name := by
  induction details with
  | nil => exact get?_cons name key value []
  | cons detail rest ih =>
      obtain ⟨other, old⟩ := detail
      unfold insert
      split
      next => rw [get?_cons]
      next =>
        split
        next hsame =>
          subst hsame
          by_cases hname : name = key <;> simp [get?_cons, hname]
        next hother =>
          rw [get?_cons, get?_cons, ih]
          by_cases hname : name = other
          · subst hname
            simp [Ne.symm hother]
          · simp [hname]

end Details

namespace Event

@[simp] theorem utteranceTag?_make (level : Level) (code : Code) (message : String) :
    (make level code message).utteranceTag? = none := rfl

@[simp] theorem utteranceTag?_withDetail (event : Event) (key value : String) :
    (event.withDetail key value).utteranceTag? =
      if "utterance" = key then some value else event.utteranceTag? :=
  Details.get?_insert "utterance" key value event.details

@[simp] theorem utteranceTag?_atWord (event : Event) (wordNo : Nat) :
    (event.atWord wordNo).utteranceTag? = event.utteranceTag? := rfl

@[simp] theorem withDetails_nil (event : Event) : event.withDetails [] = event := rfl

@[simp] theorem withDetails_cons (event : Event) (detail : String × String)
    (rest : List (String × String)) :
    event.withDetails (detail :: rest) =
      (event.withDetail detail.1 detail.2).withDetails rest := rfl

end Event

/-- What of a journal decides what is told: its settings, and the utterance that is
being processed. -/
structure Context where
  environment : Environment
  preferences? : Option LoggingPreferences
  utterance? : Option Utterance

def Context.preferences (context : Context) : LoggingPreferences :=
  context.preferences?.getD (.ofEnvironment context.environment)

namespace Journal

def context (journal : Journal) : Context :=
  ⟨journal.environment, journal.preferences?, journal.utterance?⟩

/-- The journal with a service in use. -/
def serving (journal : Journal) (service : Service) : Journal :=
  { journal with service? := some service }

variable {journal : Journal}

theorem context_allow (journal : Journal) (level : Level) :
    (journal.allow level).2.context = journal.context := by
  unfold allow
  split
  · rfl
  · dsimp only
    split <;> rfl

/-- The service has no part in what is admitted. -/
theorem allow_serving (journal : Journal) (service : Service) (level : Level) :
    (journal.serving service).allow level =
      ((journal.allow level).1, (journal.allow level).2.serving service) := by
  unfold allow
  by_cases hfree : level = .error ∨ journal.utterance? = none
  · rw [if_pos hfree]
    exact if_pos hfree
  · rw [if_neg hfree]
    refine (if_neg hfree).trans ?_
    by_cases hfull : Limits.utteranceEvents < journal.asked + 1
    · simp only [serving, hfull, if_true]
    · simp only [serving, hfull, if_false]

theorem tag_of_outside (h : journal.utterance? = none) (event : Event) :
    journal.tag event = event := by
  rw [tag, h]

theorem utteranceTag?_tag {utterance : Utterance} (h : journal.utterance? = some utterance)
    (htags : journal.preferences.tagsUtterances = true) (event : Event) :
    (journal.tag event).utteranceTag? = some (toString utterance.number) := by
  rw [tag, h]
  simp [htags]

theorem utteranceTag?_limitWarning (number dropped : Nat) :
    (limitWarning number dropped).utteranceTag? = some (toString number) := by
  simp [limitWarning]

end Journal

/-- Run from a journal with any service, the computation returns the value and leaves the
other journal; in between it tells the service the events. -/
def Told {α : Type} (body : Logging α) (before : Journal) (value : α) (events : List Event)
    (after : Journal) : Prop :=
  ∀ service, body.run (before.serving service) =
    (value, after.serving (events.foldl Service.log service))

namespace Told

variable {α β : Type} {before middle after : Journal} {value : α} {result : β}
  {events more : List Event} {event : Event}

theorem pure (value : α) (journal : Journal) :
    Told (pure value : Logging α) journal value [] journal :=
  fun _ => rfl

theorem bind {first : Logging α} {next : α → Logging β}
    (hfirst : Told first before value events middle)
    (hnext : Told (next value) middle result more after) :
    Told (first >>= next) before result (events ++ more) after := by
  intro service
  have hrun : (first >>= next).run (before.serving service) =
      (next (first.run (before.serving service)).1).run
        (first.run (before.serving service)).2 := rfl
  rw [hrun, hfirst service]
  dsimp only
  rw [hnext, List.foldl_append]

/-- An event outside of any utterance is told as it is. -/
theorem emit_outside (h : before.utterance? = none) (event : Event) :
    Told (Log.emit event) before () [event] before := by
  intro service
  have hallow : (before.serving service).allow event.level = (true, before.serving service) :=
    if_pos (.inr h)
  have hemit : (before.serving service).emit event =
      (before.serving service).deliver ((before.serving service).tag event) := by
    unfold Journal.emit
    rw [hallow]
    rfl
  have htag : (before.serving service).tag event = event := Journal.tag_of_outside h event
  change ((), (before.serving service).emit event) = _
  rw [hemit, htag]
  rfl

/-- Any event is told as it is tagged, if it is admitted. -/
theorem emit (before : Journal) (event : Event) :
    let allowed := before.allow event.level
    Told (Log.emit event) before () (if allowed.1 then [allowed.2.tag event] else [])
      allowed.2 := by
  intro allowed service
  have hserving : (before.serving service).allow event.level =
      (allowed.1, allowed.2.serving service) := before.allow_serving service event.level
  have hrun : (Log.emit event).run (before.serving service) =
      ((), if ((before.serving service).allow event.level).1 then
        ((before.serving service).allow event.level).2.deliver
          (((before.serving service).allow event.level).2.tag event)
      else ((before.serving service).allow event.level).2) := rfl
  rw [hrun, hserving]
  cases allowed.1 <;> rfl

theorem emitDebug_outside (h : before.utterance? = none) (message : String)
    (details : List (String × String)) :
    Told (Log.emitDebug message details) before ()
      (if Level.debug.passes before.preferences.minLevel then
        [(Event.debug .plainDebug message).withDetails details] else []) before := by
  intro service
  have hrun : (Log.emitDebug message details).run (before.serving service) =
      (if Level.debug.passes before.preferences.minLevel then
        Log.emit ((Event.debug .plainDebug message).withDetails details)
      else Pure.pure () : Logging Unit).run (before.serving service) := rfl
  rw [hrun]
  split
  · exact emit_outside h _ service
  · rfl

/-- After an utterance it is told how many of its events were refused. -/
theorem withUtterance {utterance : Utterance} {body : Logging α}
    (hbody : Told body (before.beginUtterance utterance) value events after) :
    Told (Log.withUtterance utterance body) before value
      (events ++ if 0 < after.dropped then
        [Journal.limitWarning utterance.number after.dropped] else [])
      after.endUtterance := by
  intro service
  have hbegin : (before.serving service).beginUtterance utterance =
      (before.beginUtterance utterance).serving service := rfl
  apply Prod.ext
  · rw [Parser.withUtterance_fst, hbegin, hbody]
  · have hdropped : (after.serving (events.foldl Service.log service)).dropped =
        after.dropped := rfl
    rw [withUtterance_snd, hbegin, hbody, List.foldl_append]
    dsimp only
    rw [hdropped]
    by_cases hrefused : 0 < after.dropped
    · simp only [hrefused, if_true]
      rfl
    · simp only [hrefused, if_false]
      rfl

end Told

/-- In the context, whatever the journal, the computation tells good events only and the
context stays. -/
def Tells {α : Type} (context : Context) (good : Event → Prop) (body : Logging α) : Prop :=
  ∀ before : Journal, before.context = context →
    ∃ value events after, Told body before value events after ∧
      after.context = context ∧ ∀ event ∈ events, good event

namespace Tells

variable {α β : Type} {context : Context} {good : Event → Prop} {event : Event}

theorem pure (value : α) : Tells context good (pure value : Logging α) :=
  fun before hbefore => ⟨value, [], before, .pure value before, hbefore, by simp⟩

theorem bind {first : Logging α} {next : α → Logging β} (hfirst : Tells context good first)
    (hnext : ∀ value, Tells context good (next value)) :
    Tells context good (first >>= next) := by
  intro before hbefore
  obtain ⟨value, events, middle, htold, hmiddle, hgood⟩ := hfirst before hbefore
  obtain ⟨result, more, after, htold', hafter, hgood'⟩ := hnext value middle hmiddle
  refine ⟨result, events ++ more, after, htold.bind htold', hafter, ?_⟩
  intro event hevent
  rcases List.mem_append.mp hevent with h | h
  · exact hgood event h
  · exact hgood' event h

/-- What is read from the settings is the same for every service. -/
theorem read (read : Journal → α) (next : α → Logging β)
    (hread : ∀ journal service, read (journal.serving service) = read journal)
    (hnext : ∀ value, Tells context good (next value)) :
    Tells context good (get >>= fun journal => next (read journal)) := by
  intro before hbefore
  obtain ⟨result, events, after, htold, hafter, hgood⟩ := hnext (read before) before hbefore
  refine ⟨result, events, after, ?_, hafter, hgood⟩
  intro service
  have hrun : ((get >>= fun journal => next (read journal) : Logging β).run
      (before.serving service)) =
        (next (read (before.serving service))).run (before.serving service) := rfl
  rw [hrun, hread]
  exact htold service

/-- An event is told as it is tagged, or it is refused. -/
theorem emit (hgood : ∀ journal : Journal, journal.context = context → good (journal.tag event)) :
    Tells context good (Log.emit event) := by
  intro before hbefore
  have hcontext := before.context_allow event.level
  rw [hbefore] at hcontext
  refine ⟨(), _, _, Told.emit before event, hcontext, ?_⟩
  intro told htold
  split at htold
  · rw [List.mem_singleton.mp htold]
    exact hgood _ hcontext
  · cases htold

theorem emitDebug {message : String} {details : List (String × String)}
    (hgood : ∀ journal : Journal, journal.context = context →
      good (journal.tag ((Event.debug .plainDebug message).withDetails details))) :
    Tells context good (Log.emitDebug message details) := by
  refine read (fun journal => journal.preferences.minLevel)
    (fun level => if Level.debug.passes level then
      Log.emit ((Event.debug .plainDebug message).withDetails details) else Pure.pure ())
    (fun _ _ => rfl) ?_
  intro level
  split
  · exact emit hgood
  · exact pure ()

/-- What is told within an utterance, and the warning at its end. -/
theorem withUtterance {utterance : Utterance} {body : Logging α}
    (houtside : context.utterance? = none)
    (hbody : Tells { context with utterance? := some utterance } good body)
    (hwarning : ∀ dropped, good (Journal.limitWarning utterance.number dropped)) :
    Tells context good (Log.withUtterance utterance body) := by
  intro before hbefore
  have hbegun : (before.beginUtterance utterance).context =
      { context with utterance? := some utterance } := by
    rw [← hbefore]
    rfl
  obtain ⟨value, events, after, htold, hafter, hgood⟩ := hbody _ hbegun
  refine ⟨value, _, after.endUtterance, htold.withUtterance, ?_, ?_⟩
  · have hsettings : after.endUtterance.context = { after.context with utterance? := none } := rfl
    rw [hsettings, hafter, ← houtside]
  · intro event hevent
    rcases List.mem_append.mp hevent with h | h
    · exact hgood event h
    · split at h
      · rw [List.mem_singleton.mp h]
        exact hwarning _
      · cases h

end Tells

end SpokenKeys.Log
