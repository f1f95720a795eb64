import Mathlib.Data.List.Perm.Basic
import SpokenKeys.Proofs.RecentEvents
import SpokenKeys.Proofs.UtteranceEvents

/-!
Which events a memory finds for the number of an utterance. All that is told while a
parser is called carries the number of the call; so does nothing else that is told about
the texts of a run, but for the one event before a text is tokenized: that event keeps
the text itself under the same name. A text that is the number in digits is therefore
taken for the utterance of that number, wherever in the run it stands.
-/

namespace SpokenKeys

namespace Log

theorem receiveAll_memory (log : MemoryLog) (events : List Event) :
    Sink.receiveAll events (.memory log) = .memory (log.recordAll events) := by
  induction events generalizing log with
  | nil => rfl
  | cons event rest ih => exact ih (log.record event)

namespace Journal

/-- The journal whose service passes everything on to a memory. -/
def writingTo (journal : Journal) (log : MemoryLog) : Journal :=
  journal.serving { minLevel := .debug, sinks := [.memory log] }

theorem events_writingTo (journal : Journal) (log : MemoryLog) :
    (journal.writingTo log).events = log.toList :=
  List.append_nil _

theorem foldl_log_memory (log : MemoryLog) (events : List Event) :
    events.foldl Service.log { minLevel := .debug, sinks := [.memory log] } =
      { minLevel := .debug, sinks := [.memory (log.recordAll events)] } := by
  rw [Service.foldl_log, Service.passing_of_debug rfl, List.map_singleton, receiveAll_memory]

end Journal

/-- A computation with the events that were kept while it ran. -/
def watch {α : Type} (body : Logging α) : Logging (α × List Event) := do
  let before := (← get).events
  let value ← body
  let after := (← get).events
  return (value, after.drop before.length)

theorem bind_run {α β : Type} (first : Logging α) (next : α → Logging β) (journal : Journal) :
    (first >>= next).run journal =
      (next (first.run journal).1).run (first.run journal).2 := rfl

theorem watch_run {α : Type} (body : Logging α) (journal : Journal) :
    (watch body).run journal =
      (((body.run journal).1, (body.run journal).2.events.drop journal.events.length),
        (body.run journal).2) := rfl

/-- In a memory that has room for them, the computation leaves the events. -/
def Leaves {α : Type} (body : Logging α) (before : Journal) (value : α) (events : List Event)
    (after : Journal) : Prop :=
  ∀ log : MemoryLog, log.size + events.length ≤ log.capacity →
    body.run (before.writingTo log) = (value, after.writingTo (log.recordAll events))

namespace Leaves

variable {α β : Type} {before middle after : Journal} {value : α} {result : β}
  {events more : List Event}

theorem pure (value : α) (journal : Journal) :
    Leaves (pure value : Logging α) journal value [] journal :=
  fun _ _ => rfl

theorem bind {first : Logging α} {next : α → Logging β}
    (hfirst : Leaves first before value events middle)
    (hnext : Leaves (next value) middle result more after) :
    Leaves (first >>= next) before result (events ++ more) after := by
  intro log hroom
  rw [List.length_append] at hroom
  have hfits : log.size + events.length ≤ log.capacity := by omega
  have hmore : (log.recordAll events).size + more.length ≤ (log.recordAll events).capacity := by
    rw [MemoryLog.size_recordAll hfits, MemoryLog.capacity_recordAll]
    omega
  rw [bind_run, hfirst log hfits, MemoryLog.recordAll_append]
  exact hnext _ hmore

theorem of_told {body : Logging α} (htold : Told body before value events after) :
    Leaves body before value events after := by
  intro log _
  refine (htold _).trans ?_
  rw [Journal.foldl_log_memory]
  rfl

/-- What is watched are the events that are left. -/
theorem watch {body : Logging α} (h : Leaves body before value events after) :
    Leaves (Log.watch body) before (value, events) events after := by
  intro log hroom
  rw [watch_run, h log hroom]
  dsimp only
  rw [Journal.events_writingTo, Journal.events_writingTo, MemoryLog.toList_recordAll hroom,
    List.drop_left]

end Leaves

end Log

open Log (Context Event Journal Leaves Logging MemoryLog Told watch)

/-- What is told about a text, step by step. -/
structure Passage where
  text : String
  opening : List Event
  tokenizing : List Event
  /-- The number of the parser's call, if there is one, and what is told while it runs. -/
  call? : Option (Nat × List Event)
  closing : List Event

namespace Passage

def called (passage : Passage) : List Event :=
  match passage.call? with
  | some (_, told) => told
  | none => []

/-- How often the parser is called. -/
def calls (passage : Passage) : Nat := if passage.call?.isSome then 1 else 0

def events (passage : Passage) : List Event :=
  passage.opening ++ passage.tokenizing ++ passage.called ++ passage.closing

/-- What is told while the parser's call of the number runs. -/
def own (number : Nat) (passage : Passage) : List Event :=
  match passage.call? with
  | some (call, told) => if call = number then told else []
  | none => []

/-- What is told before a text is tokenized that is the number in digits. -/
def foreign (number : Nat) (passage : Passage) : List Event :=
  if passage.text = toString number then passage.opening else []

/-- How the events of a passage are tagged. -/
structure Tagged (passage : Passage) : Prop where
  opening : ∀ event ∈ passage.opening, event.utteranceTag? = some passage.text
  tokenizing : ∀ event ∈ passage.tokenizing, event.utteranceTag? = none
  called : ∀ number told, passage.call? = some (number, told) →
    ∀ event ∈ told, event.utteranceTag? = some (toString number)
  closing : ∀ event ∈ passage.closing, event.utteranceTag? = some passage.text
  digits : ∀ number : Nat, passage.text = toString number → passage.closing = []

variable {passage : Passage}

theorem filter_of_tag {events : List Event} {tag? : Option String} (number : Nat)
    (h : ∀ event ∈ events, event.utteranceTag? = tag?) :
    events.filter (fun event => event.utteranceTag? == some (toString number)) =
      if tag? = some (toString number) then events else [] := by
  split
  next hsame =>
    rw [List.filter_eq_self]
    intro event hevent
    rw [h event hevent, hsame, beq_self_eq_true]
  next hother =>
    rw [List.filter_eq_nil_iff]
    intro event hevent
    rw [h event hevent, beq_iff_eq]
    exact hother

theorem filter_called (htagged : passage.Tagged) (number : Nat) :
    passage.called.filter (fun event => event.utteranceTag? == some (toString number)) =
      passage.own number := by
  unfold called own
  cases hcall : passage.call? with
  | none => rfl
  | some call =>
      obtain ⟨place, told⟩ := call
      dsimp only
      rw [filter_of_tag number (htagged.called place told hcall)]
      by_cases hplace : place = number
      · rw [hplace, if_pos rfl, if_pos rfl]
      · have hdigits : some (toString place) ≠ some (toString number) := by
          intro hsame
          exact hplace (Numeral.eq_of_toString (Option.some.inj hsame))
        rw [if_neg hplace, if_neg hdigits]

/-- The number is found in what the call of the number tells, and in what is told of a
text that is the number. -/
theorem filter_events (htagged : passage.Tagged) (number : Nat) :
    passage.events.filter (fun event => event.utteranceTag? == some (toString number)) =
      passage.foreign number ++ passage.own number := by
  have hclosing : passage.closing.filter
      (fun event => event.utteranceTag? == some (toString number)) = [] := by
    rw [filter_of_tag number htagged.closing]
    split
    next hsame => exact htagged.digits number (Option.some.inj hsame)
    next => rfl
  have htokenizing : passage.tokenizing.filter
      (fun event => event.utteranceTag? == some (toString number)) = [] := by
    rw [filter_of_tag number htagged.tokenizing, if_neg (by simp)]
  have hopening : passage.opening.filter
      (fun event => event.utteranceTag? == some (toString number)) = passage.foreign number := by
    rw [filter_of_tag number htagged.opening, foreign]
    simp only [Option.some.injEq]
  rw [events, List.filter_append, List.filter_append, List.filter_append, hopening, htokenizing,
    filter_called htagged, hclosing, List.append_nil, List.append_nil]

end Passage

/-- Processing a text, with what is told in each step. The parser has had some calls
before. -/
def watchUtterance (parser : Parser) (calls : Nat) (text : String) (micros : Nat) :
    Logging (Passage × Parser) := do
  let (_, opening) ← watch (Log.emitDebug "Starting utterance processing" [("utterance", text)])
  let (tokens, tokenizing) ← watch (tokenizeUtterance text parser.entry)
  match tokens with
  | .error _ => return ({ text, opening, tokenizing, call? := none, closing := [] }, parser)
  | .ok stream =>
      let ((outcome, parser), told) ← watch (parser.parse stream.tokens)
      let call? := some (calls + 1, told)
      match outcome with
      | .error _ => return ({ text, opening, tokenizing, call?, closing := [] }, parser)
      | .ok outcome =>
          let result := PipelineResult.make stream outcome parser.session
          let (_, closing) ← watch (Log.emit (result.event text micros))
          return ({ text, opening, tokenizing, call?, closing }, parser)

/-- Watching changes nothing. -/
theorem watchUtterance_run (parser : Parser) (calls : Nat) (text : String) (micros : Nat)
    (journal : Journal) :
    let watched := (watchUtterance parser calls text micros).run journal
    let processed := (processUtterance parser text micros).run journal
    watched.1.2 = processed.1.2 ∧ watched.2 = processed.2 := by
  rcases hopening : (Log.emitDebug "Starting utterance processing" [("utterance", text)]).run
    journal with ⟨⟨⟩, opened⟩
  rcases htokens : (tokenizeUtterance text parser.entry).run opened with ⟨tokens, tokenized⟩
  cases tokens with
  | error error =>
      simp only [watchUtterance, processUtterance, Log.bind_run, Log.watch_run, hopening, htokens]
      exact ⟨rfl, rfl⟩
  | ok stream =>
      rcases hparse : (parser.parse stream.tokens).run tokenized with ⟨⟨outcome, after⟩, parsed⟩
      cases outcome with
      | error error =>
          simp only [watchUtterance, processUtterance, Log.bind_run, Log.watch_run, hopening,
            htokens, hparse]
          exact ⟨rfl, rfl⟩
      | ok outcome =>
          simp only [watchUtterance, processUtterance, Log.bind_run, Log.watch_run, hopening,
            htokens, hparse]
          exact ⟨rfl, rfl⟩

/-- What is told before a text is tokenized. -/
def openingEvents (preferences : LoggingPreferences) (text : String) : List Event :=
  if Log.Level.debug.passes preferences.minLevel then
    [(Event.debug .plainDebug "Starting utterance processing").withDetails [("utterance", text)]]
  else []

theorem openingEvents_tagged {preferences : LoggingPreferences} {text : String} :
    ∀ event ∈ openingEvents preferences text, event.utteranceTag? = some text := by
  intro event hevent
  unfold openingEvents at hevent
  split at hevent
  · rw [List.mem_singleton.mp hevent]
    simp
  · cases hevent

theorem resultEvent_tagged (result : PipelineResult) (text : String) (micros : Nat) :
    (result.event text micros).utteranceTag? = some text := by
  simp [PipelineResult.event]

/-- A parser counts every utterance it hears. -/
theorem Parser.heard_utterances (parser : Parser) (tokens : List Token) :
    (parser.heard tokens).2.stats.utterances = parser.stats.utterances + 1 := by
  rcases parser.heard_cases tokens with ⟨_, _, _, -, -, hheard⟩ | ⟨_, -, -, hheard⟩
  · rw [hheard]
    rfl
  · rw [hheard]
    rfl

/-- A text for which nothing is told at the end. -/
theorem Passage.tagged_of_unfinished {preferences : LoggingPreferences} {text : String}
    {tokenizing : List Event} {call? : Option (Nat × List Event)}
    (htokenizing : ∀ event ∈ tokenizing, event.utteranceTag? = none)
    (hcalled : ∀ number told, call? = some (number, told) →
      ∀ event ∈ told, event.utteranceTag? = some (toString number)) :
    (Passage.mk text (openingEvents preferences text) tokenizing call? []).Tagged where
  opening := openingEvents_tagged
  tokenizing := htokenizing
  called := hcalled
  closing := by simp
  digits := fun _ _ => rfl

/-- A text that is not a number's digits, and became an action. -/
theorem Passage.tagged_of_finished {preferences : LoggingPreferences} {text : String}
    {tokenizing : List Event} {call? : Option (Nat × List Event)} {result : PipelineResult}
    {micros : Nat} (htokenizing : ∀ event ∈ tokenizing, event.utteranceTag? = none)
    (hcalled : ∀ number told, call? = some (number, told) →
      ∀ event ∈ told, event.utteranceTag? = some (toString number))
    (hdigits : ∀ number : Nat, text ≠ toString number) :
    (Passage.mk text (openingEvents preferences text) tokenizing call?
      [result.event text micros]).Tagged where
  opening := openingEvents_tagged
  tokenizing := htokenizing
  called := hcalled
  closing := by
    intro event hevent
    rw [List.mem_singleton.mp hevent]
    exact resultEvent_tagged result text micros
  digits := fun number hnumber => absurd hnumber (hdigits number)

section Watching

variable {before tokenized parsed : Journal} {parser next : Parser} {calls micros : Nat}
  {text : String} {stream : TokenStream} {tokenizing told : List Event}

theorem opening_leaves (houtside : before.utterance? = none) :
    Leaves (Log.emitDebug "Starting utterance processing" [("utterance", text)]) before ()
      (openingEvents before.preferences text) before :=
  .of_told (.emitDebug_outside houtside _ _)

theorem watchUtterance_refused {error : LexicalError} (houtside : before.utterance? = none)
    (htokens : Told (tokenizeUtterance text parser.entry) before (.error error) tokenizing
      tokenized) :
    let passage : Passage := ⟨text, openingEvents before.preferences text, tokenizing, none, []⟩
    Leaves (watchUtterance parser calls text micros) before (passage, parser) passage.events
      tokenized := by
  intro passage
  have hevents : passage.events =
      openingEvents before.preferences text ++ (tokenizing ++ []) := by
    simp [passage, Passage.events, Passage.called]
  rw [hevents]
  exact (opening_leaves houtside).watch.bind ((Leaves.of_told htokens).watch.bind (.pure _ _))

theorem watchUtterance_rejected {error : ParseError} (houtside : before.utterance? = none)
    (htokens : Told (tokenizeUtterance text parser.entry) before (.ok stream) tokenizing tokenized)
    (hparse : Told (parser.parse stream.tokens) tokenized (.error error, next) told parsed) :
    let passage : Passage :=
      ⟨text, openingEvents before.preferences text, tokenizing, some (calls + 1, told), []⟩
    Leaves (watchUtterance parser calls text micros) before (passage, next) passage.events
      parsed := by
  intro passage
  have hevents : passage.events =
      openingEvents before.preferences text ++ (tokenizing ++ (told ++ [])) := by
    simp [passage, Passage.events, Passage.called]
  rw [hevents]
  exact (opening_leaves houtside).watch.bind ((Leaves.of_told htokens).watch.bind
    ((Leaves.of_told hparse).watch.bind (.pure _ _)))

theorem watchUtterance_accepted {outcome : ParseOutcome} (houtside : before.utterance? = none)
    (htokens : Told (tokenizeUtterance text parser.entry) before (.ok stream) tokenizing tokenized)
    (hparse : Told (parser.parse stream.tokens) tokenized (.ok outcome, next) told parsed)
    (hparsed : parsed.utterance? = none) :
    let event := (PipelineResult.make stream outcome next.session).event text micros
    let passage : Passage :=
      ⟨text, openingEvents before.preferences text, tokenizing, some (calls + 1, told), [event]⟩
    Leaves (watchUtterance parser calls text micros) before (passage, next) passage.events
      parsed := by
  intro event passage
  have hevents : passage.events =
      openingEvents before.preferences text ++ (tokenizing ++ (told ++ ([event] ++ []))) := by
    simp [passage, Passage.events, Passage.called]
  have hclosing : Leaves (Log.emit event) parsed () [event] parsed :=
    .of_told (.emit_outside hparsed event)
  rw [hevents]
  exact (opening_leaves houtside).watch.bind ((Leaves.of_told htokens).watch.bind
    ((Leaves.of_told hparse).watch.bind (hclosing.watch.bind (.pure _ _))))

end Watching

/-- What is told about a text outside of any utterance, whatever memory keeps it. -/
theorem watchUtterance_leaves {context : Context} (houtside : context.utterance? = none)
    (htags : context.preferences.tagsUtterances = true) (parser : Parser) (text : String)
    (micros : Nat) {before : Journal} (hbefore : before.context = context) :
    ∃ (passage : Passage) (next : Parser) (after : Journal),
      Leaves (watchUtterance parser parser.stats.utterances text micros) before (passage, next)
        passage.events after ∧
      passage.Tagged ∧ passage.text = text ∧
      passage.opening = openingEvents context.preferences text ∧
      next.stats.utterances = parser.stats.utterances + passage.calls ∧
      after.context = context := by
  subst hbefore
  obtain ⟨tokens, tokenizing, tokenized, htokens, htokenized, hplain⟩ :=
    tokenizeUtterance_tells text parser.entry houtside before rfl
  cases tokens with
  | error error =>
      exact ⟨_, parser, tokenized, watchUtterance_refused houtside htokens,
        Passage.tagged_of_unfinished hplain (by simp), rfl, rfl, rfl, htokenized⟩
  | ok stream =>
      obtain ⟨⟨outcome, next⟩, told, parsed, hparse, hparsed, hnumbered⟩ :=
        parser.parse_tells stream.tokens houtside htags tokenized htokenized
      have hheard : (outcome, next) = parser.heard stream.tokens := by
        rw [← parser.parse_fst stream.tokens (tokenized.serving default), hparse]
      have hcount : next.stats.utterances = parser.stats.utterances + 1 := by
        rw [← parser.heard_utterances stream.tokens, ← hheard]
      have hcalled : ∀ number events, some (parser.stats.utterances + 1, told) =
          some (number, events) → ∀ event ∈ events,
            event.utteranceTag? = some (toString number) := by
        intro number events hsame
        cases hsame
        exact hnumbered
      cases outcome with
      | error error =>
          exact ⟨_, next, parsed, watchUtterance_rejected houtside htokens hparse,
            Passage.tagged_of_unfinished hplain hcalled, rfl, rfl, hcount, hparsed⟩
      | ok outcome =>
          have hended : parsed.utterance? = none :=
            (congrArg Context.utterance? hparsed).trans houtside
          have hdigits : ∀ number : Nat, text ≠ toString number := by
            intro number hnumber
            have hstream := tokenizeUtterance_fst text parser.entry (before.serving default)
            rw [htokens, hnumber] at hstream
            exact Numeral.not_accepted (Numeral.kinds_of_tokenizeText hstream.symm)
              (congrArg Prod.fst hheard).symm
          exact ⟨_, next, parsed, watchUtterance_accepted houtside htokens hparse hended,
            Passage.tagged_of_finished hplain hcalled hdigits, rfl, rfl, hcount, hparsed⟩

/-- The parser after texts that are processed one after the other, each in some
microseconds. -/
def processAll (parser : Parser) : List (String × Nat) → Logging Parser
  | [] => return parser
  | (text, micros) :: rest => do
      let (_, parser) ← processUtterance parser text micros
      processAll parser rest

/-- Processing texts, with what is told about each. The parser has had some calls
before. -/
def watchAll (parser : Parser) (calls : Nat) :
    List (String × Nat) → Logging (List Passage × Parser)
  | [] => return ([], parser)
  | (text, micros) :: rest => do
      let (passage, parser) ← watchUtterance parser calls text micros
      let (passages, parser) ← watchAll parser (calls + passage.calls) rest
      return (passage :: passages, parser)

theorem watchAll_run (parser : Parser) (calls : Nat) (texts : List (String × Nat))
    (journal : Journal) :
    let watched := (watchAll parser calls texts).run journal
    (watched.1.2, watched.2) = (processAll parser texts).run journal := by
  induction texts generalizing parser calls journal with
  | nil => rfl
  | cons head rest ih =>
      obtain ⟨text, micros⟩ := head
      obtain ⟨hparser, hjournal⟩ := watchUtterance_run parser calls text micros journal
      have hrun : (processAll parser ((text, micros) :: rest)).run journal =
          let processed := (processUtterance parser text micros).run journal
          (processAll processed.1.2 rest).run processed.2 := rfl
      rw [hrun]
      dsimp only
      rw [← hparser, ← hjournal]
      exact ih _ _ _

/-- What is told about texts outside of any utterance, whatever memory keeps it. -/
theorem watchAll_leaves {context : Context} (houtside : context.utterance? = none)
    (htags : context.preferences.tagsUtterances = true) (parser : Parser)
    (texts : List (String × Nat)) {before : Journal} (hbefore : before.context = context) :
    ∃ (passages : List Passage) (final : Parser) (after : Journal),
      Leaves (watchAll parser parser.stats.utterances texts) before (passages, final)
        (passages.flatMap Passage.events) after ∧
      (∀ passage ∈ passages, passage.Tagged ∧
        passage.opening = openingEvents context.preferences passage.text) ∧
      passages.map Passage.text = texts.map Prod.fst := by
  induction texts generalizing parser before with
  | nil => exact ⟨[], parser, before, .pure _ _, by simp, rfl⟩
  | cons head rest ih =>
      obtain ⟨text, micros⟩ := head
      obtain ⟨passage, next, middle, hfirst, htagged, htext, hopening, hcount, hmiddle⟩ :=
        watchUtterance_leaves houtside htags parser text micros hbefore
      obtain ⟨passages, final, after, hrest, hpassages, htexts⟩ := ih next hmiddle
      rw [hcount] at hrest
      refine ⟨passage :: passages, final, after, ?_, ?_, ?_⟩
      · have hevents : (passage :: passages).flatMap Passage.events =
            passage.events ++ (passages.flatMap Passage.events ++ []) := by
          rw [List.flatMap_cons, List.append_nil]
        rw [hevents]
        exact hfirst.bind (hrest.bind (.pure _ _))
      · intro other hmem
        rcases List.mem_cons.mp hmem with rfl | hmem
        · exact ⟨htagged, htext ▸ hopening⟩
        · exact hpassages other hmem
      · rw [List.map_cons, List.map_cons, htext, htexts]

namespace Passage

variable {passages : List Passage}

/-- What a memory finds for a number among what is told. -/
theorem filter_flatMap (htagged : ∀ passage ∈ passages, passage.Tagged) (number : Nat) :
    (passages.flatMap events).filter
        (fun event => event.utteranceTag? == some (toString number)) =
      passages.flatMap fun passage => passage.foreign number ++ passage.own number := by
  rw [List.filter_flatMap]
  apply List.flatMap_congr
  intro passage hmem
  exact filter_events (htagged passage hmem) number

theorem flatMap_own_iff (passages : List Passage) (number : Nat) :
    (passages.flatMap fun passage => passage.foreign number ++ passage.own number) =
        passages.flatMap (own number) ↔
      ∀ passage ∈ passages, passage.foreign number = [] := by
  rw [← List.flatMap_eq_nil_iff]
  have hlength := (passages.flatMap_append_perm (foreign number) (own number)).length_eq
  rw [List.length_append] at hlength
  constructor
  · intro hsame
    rw [hsame] at hlength
    exact List.eq_nil_of_length_eq_zero (by omega)
  · intro hnone
    apply List.flatMap_congr
    intro passage hmem
    rw [List.flatMap_eq_nil_iff.mp hnone passage hmem, List.nil_append]

/-- Nothing is told before a text is tokenized unless debugging events are preferred. -/
theorem foreign_eq_nil_iff {preferences : LoggingPreferences}
    (hopening : ∀ passage ∈ passages, passage.opening = openingEvents preferences passage.text)
    (number : Nat) :
    (∀ passage ∈ passages, passage.foreign number = []) ↔
      preferences.minLevel ≠ .debug ∨ toString number ∉ passages.map text := by
  have hpasses : Log.Level.debug.passes preferences.minLevel = true ↔
      preferences.minLevel = .debug := by
    cases preferences.minLevel <;> decide
  by_cases hlevel : preferences.minLevel = .debug
  · have hforeign : ∀ passage ∈ passages,
        (passage.foreign number = [] ↔ passage.text ≠ toString number) := by
      intro passage hmem
      rw [foreign, hopening passage hmem, openingEvents, if_pos (hpasses.mpr hlevel)]
      split
      next htext => simp [htext]
      next htext => simpa using htext
    rw [or_iff_right (not_not.mpr hlevel), List.mem_map]
    constructor
    · rintro hnone ⟨passage, hmem, htext⟩
      exact (hforeign passage hmem).mp (hnone passage hmem) htext
    · intro hnone passage hmem
      exact (hforeign passage hmem).mpr fun htext => hnone ⟨passage, hmem, htext⟩
  · refine iff_of_true (fun passage hmem => ?_) (.inl hlevel)
    rw [foreign, hopening passage hmem, openingEvents, if_neg (mt hpasses.mp hlevel), ite_self]

end Passage

/-- What a memory with room for it keeps of a run, and what it finds there. -/
theorem processAll_found {journal : Journal} (houtside : journal.utterance? = none)
    (htags : journal.preferences.tagsUtterances = true) {parser : Parser}
    (hfresh : parser.stats.utterances = 0) (texts : List (String × Nat)) :
    ∃ passages : List Passage,
      (∀ passage ∈ passages,
        passage.opening = openingEvents journal.preferences passage.text) ∧
      passages.map Passage.text = texts.map Prod.fst ∧
      ∀ log : MemoryLog, log.toList = [] →
        (passages.flatMap Passage.events).length ≤ log.capacity →
        ((watchAll parser 0 texts).run (journal.writingTo log)).1.1 = passages ∧
        ∃ memory : MemoryLog,
          ((processAll parser texts).run (journal.writingTo log)).2.service? =
            some { minLevel := .debug, sinks := [.memory memory] } ∧
          memory.toList = passages.flatMap Passage.events ∧
          ∀ number : Nat, memory.ofUtterance number =
            passages.flatMap fun passage => passage.foreign number ++ passage.own number := by
  have hcontext : journal.context.utterance? = none := houtside
  obtain ⟨passages, final, after, hleaves, hpassages, htexts⟩ :=
    watchAll_leaves hcontext htags parser texts rfl
  rw [hfresh] at hleaves
  refine ⟨passages, fun passage hmem => (hpassages passage hmem).2, htexts,
    fun log hempty hroom => ?_⟩
  have hsize : log.size = 0 := congrArg List.length hempty
  have hfits : log.size + (passages.flatMap Passage.events).length ≤ log.capacity := by omega
  have hkept := MemoryLog.toList_recordAll hfits
  rw [hempty, List.nil_append] at hkept
  have hsame := watchAll_run parser 0 texts (journal.writingTo log)
  rw [hleaves log hfits] at hsame ⊢
  refine ⟨rfl, log.recordAll (passages.flatMap Passage.events), ?_, hkept, fun number => ?_⟩
  · rw [← hsame]
    rfl
  · rw [MemoryLog.ofUtterance, hkept]
    exact Passage.filter_flatMap (fun passage hmem => (hpassages passage hmem).1) number

/-- Let a fresh parser process texts while a memory with room for it keeps all that is
told, outside of any utterance at first and with tags preferred. Then the memory finds
for a number what is told while the parser's call of that number runs, in order, and
besides the event before the text is tokenized of every text that is the number in
digits. So it finds exactly what is told while the call runs unless debugging events are
preferred and there is such a text. -/
theorem events_found_by_number (entry : Entry) (session : Session)
    (preferences : GrammarPreferences) (trace? : Option MemoryLog)
    (texts : List (String × Nat)) (journal : Journal) (houtside : journal.utterance? = none)
    (htags : journal.preferences.tagsUtterances = true) :
    let parser : Parser := { entry, session, preferences, trace? }
    ∃ total, ∀ log : MemoryLog, log.toList = [] → total ≤ log.capacity →
      let watched := (watchAll parser 0 texts).run (journal.writingTo log)
      let processed := (processAll parser texts).run (journal.writingTo log)
      let passages := watched.1.1
      (watched.1.2, watched.2) = processed ∧
      ∃ memory : MemoryLog,
        processed.2.service? = some { minLevel := .debug, sinks := [.memory memory] } ∧
        memory.size = total ∧ memory.toList = passages.flatMap Passage.events ∧
        ∀ number : Nat,
          memory.ofUtterance number =
            passages.flatMap (fun passage => passage.foreign number ++ passage.own number) ∧
          (memory.ofUtterance number = passages.flatMap (Passage.own number) ↔
            journal.preferences.minLevel ≠ .debug ∨
              toString number ∉ texts.map Prod.fst) := by
  intro parser
  have hfresh : parser.stats.utterances = 0 := rfl
  obtain ⟨passages, hopening, htexts, hfound⟩ := processAll_found houtside htags hfresh texts
  refine ⟨(passages.flatMap Passage.events).length, fun log hempty hroom => ?_⟩
  obtain ⟨hpassages, memory, hservice, hkept, hnumbers⟩ := hfound log hempty hroom
  dsimp only
  rw [hpassages]
  refine ⟨watchAll_run parser 0 texts (journal.writingTo log), memory, hservice,
    congrArg List.length hkept, hkept, fun number => ⟨hnumbers number, ?_⟩⟩
  rw [hnumbers, Passage.flatMap_own_iff, ← htexts]
  exact Passage.foreign_eq_nil_iff hopening number

/-- What is told of a word that is said for the second time is found by its number. -/
theorem events_found_of_second_word :
    let journal : Journal := { preferences? := some { minLevel := .debug } }
    let texts := [("up", 0), ("up", 0)]
    journal.utterance? = none ∧ journal.preferences.tagsUtterances = true ∧
    ∃ total, ∀ log : MemoryLog, log.toList = [] → total ≤ log.capacity →
      let passages := ((watchAll { entry := .strict } 0 texts).run (journal.writingTo log)).1.1
      ∃ memory : MemoryLog,
        ((processAll { entry := .strict } texts).run (journal.writingTo log)).2.service? =
          some { minLevel := .debug, sinks := [.memory memory] } ∧
        memory.ofUtterance 2 = passages.flatMap (Passage.own 2) := by
  intro journal texts
  obtain ⟨total, hfound⟩ :=
    events_found_by_number .strict .awake {} none texts journal rfl rfl
  refine ⟨rfl, rfl, total, fun log hempty hroom => ?_⟩
  obtain ⟨-, memory, hservice, -, -, hnumbers⟩ := hfound log hempty hroom
  have hother : toString 2 ∉ texts.map Prod.fst := by decide
  exact ⟨memory, hservice, (hnumbers 2).2.mpr (.inr hother)⟩

/-- A text that is the number one is taken for the first utterance. -/
theorem digits_found_as_utterance :
    let journal : Journal := { preferences? := some { minLevel := .debug } }
    let texts := [("1", 0)]
    ∃ log memory : MemoryLog,
      let passages := ((watchAll { entry := .strict } 0 texts).run (journal.writingTo log)).1.1
      log.toList = [] ∧
      ((processAll { entry := .strict } texts).run (journal.writingTo log)).2.service? =
        some { minLevel := .debug, sinks := [.memory memory] } ∧
      memory.toList = passages.flatMap Passage.events ∧
      memory.ofUtterance 1 ≠ passages.flatMap (Passage.own 1) := by
  intro journal texts
  have htags : journal.preferences.tagsUtterances = true := rfl
  have houtside : journal.utterance? = none := rfl
  have hfresh : ({ entry := .strict } : Parser).stats.utterances = 0 := rfl
  obtain ⟨passages, hopening, htexts, hfound⟩ := processAll_found houtside htags hfresh texts
  obtain ⟨hpassages, memory, hservice, hkept, hnumbers⟩ :=
    hfound (.ofCapacity (passages.flatMap Passage.events).length) rfl (Nat.le_max_left _ _)
  refine ⟨_, memory, rfl, hservice, ?_, ?_⟩
  · rw [hpassages, hkept]
  · rw [hpassages, hnumbers, Ne, Passage.flatMap_own_iff, Passage.foreign_eq_nil_iff hopening,
      htexts]
    decide

end SpokenKeys
