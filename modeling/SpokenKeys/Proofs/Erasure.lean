import SpokenKeys.Proofs.Agreement
import SpokenKeys.Proofs.Telling

/-!
Rejected utterances leave no trace. Nothing is evaluated for them, the parser
moves its counts only, and the one event that is logged says that the utterance
was rejected. A run of utterances therefore comes to the same without those that
were rejected in it.
-/

namespace SpokenKeys

namespace Log

variable {event : Event}

theorem Journal.emit_error (journal : Journal) (hlevel : event.level = .error) :
    journal.emit event = journal.deliver (journal.tag event) := by
  have hallow : journal.allow event.level = (true, journal) := if_pos (.inl hlevel)
  unfold emit
  split
  · rw [hallow]
    rfl
  next hservice =>
    have hnone : journal.service? = none := by simpa using hservice
    unfold deliver
    cases journal
    simp only at hnone
    rw [hnone]
    rfl

/-- The journal after an utterance: events that were refused are reported. -/
theorem withUtterance_snd {α : Type} (utterance : Utterance) (body : Logging α)
    (journal : Journal) :
    ((withUtterance utterance body).run journal).2 =
      let after := (body.run (journal.beginUtterance utterance)).2
      if 0 < after.dropped then
        after.endUtterance.deliver (Journal.limitWarning utterance.number after.dropped)
      else after.endUtterance := by
  have hrun : ((withUtterance utterance body).run journal).2 =
      ((do
        if 0 < (body.run (journal.beginUtterance utterance)).2.dropped then
          modify (·.deliver (Journal.limitWarning utterance.number
            (body.run (journal.beginUtterance utterance)).2.dropped))
        return (body.run (journal.beginUtterance utterance)).1 : Logging α).run
          (body.run (journal.beginUtterance utterance)).2.endUtterance).2 := rfl
  rw [hrun]
  dsimp only
  split <;> rfl

end Log

namespace Parser

variable {parser other : Parser} {tokens : List Token} {error : ParseError}
  {outcome : ParseOutcome}

theorem rejectionEvent_level (error : ParseError) : (rejectionEvent error).level = .error := by
  unfold rejectionEvent
  split <;> rfl

theorem eq_of_heard_error (h : (parser.heard tokens).1 = .error error) :
    interpretTokens parser.entry.rule tokens parser.session =
        (.error error, { session := parser.session }) ∧
      (parser.heard tokens).2 = parser.rejecting := by
  rcases parser.heard_cases tokens with
    ⟨_, _, outcome, -, -, hheard⟩ | ⟨cause, hrun, -, hheard⟩
  · rw [hheard] at h
    cases h
  · rw [hheard] at h ⊢
    obtain rfl := Except.error.inj h
    exact ⟨hrun, rfl⟩

/-- All that parsing a rejected utterance logs is that it was rejected. -/
theorem parse_service? (h : (parser.heard tokens).1 = .error error) (journal : Log.Journal) :
    ∃ event : Log.Event, event.code = error.code ∧
      ((parser.parse tokens).run journal).2.service? = journal.service?.map (·.log event) := by
  obtain ⟨hinterpreted, -⟩ := eq_of_heard_error h
  let begun := journal.beginUtterance ⟨parser.stats.utterances + 1, parser.entry.name⟩
  let counted : Parser :=
    { parser with stats := { parser.stats with utterances := parser.stats.utterances + 1 } }
  have hlevel := rejectionEvent_level error
  refine ⟨begun.tag (rejectionEvent error), ?_, ?_⟩
  · rw [Log.Journal.tag_code, rejectionEvent_code]
  have hbody : ((counted.parseCounted tokens).run begun).2 = begun.emit (rejectionEvent error) := by
    have hrun : interpretTokens counted.entry.rule tokens counted.session = _ := hinterpreted
    unfold parseCounted
    dsimp only
    rw [hrun]
    rfl
  unfold parse
  rw [Log.withUtterance_snd, hbody, Log.Journal.emit_error _ hlevel]
  rfl

/-- The parsers are the same but for their counts of utterances and rejections. -/
def Alike (parser other : Parser) : Prop :=
  ∃ utterances rejected,
    other = { parser with stats := { parser.stats with utterances, rejected } }

theorem Alike.session_eq (h : parser.Alike other) : other.session = parser.session := by
  obtain ⟨utterances, rejected, rfl⟩ := h
  rfl

/-- The counts play no part in hearing. -/
theorem Alike.heard_fst (h : parser.Alike other) (tokens : List Token) :
    (other.heard tokens).1 = (parser.heard tokens).1 := by
  obtain ⟨utterances, rejected, rfl⟩ := h
  unfold heard
  dsimp only
  split <;> rfl

theorem Alike.heard_snd (h : parser.Alike other) (haccepted : (parser.heard tokens).1 = .ok outcome) :
    (parser.heard tokens).2.Alike (other.heard tokens).2 := by
  have hresult := (h.heard_fst tokens).trans haccepted
  -- Both evaluate the same derivation in the same session.
  rcases parser.heard_cases tokens with
    ⟨parsed, after, first, hrun, hfirst, hheard⟩ | ⟨cause, -, -, hheard⟩
  · rcases other.heard_cases tokens with
      ⟨_, _, second, hrun', hsecond, hheard'⟩ | ⟨cause, -, -, hheard'⟩
    · rw [hheard, hheard']
      obtain ⟨utterances, rejected, rfl⟩ := h
      cases hrun.symm.trans hrun'
      obtain rfl : first = second := Except.ok.inj (hfirst.symm.trans hsecond)
      exact ⟨utterances + 1, rejected, rfl⟩
    · rw [hheard'] at hresult
      cases hresult
  · rw [hheard] at haccepted
    cases haccepted

theorem Alike.rejecting (h : parser.Alike other) : parser.rejecting.Alike other := by
  obtain ⟨utterances, rejected, rfl⟩ := h
  exact ⟨utterances, rejected, rfl⟩

/-- The parser after a run of utterances. -/
def heardAll (parser : Parser) : List (List Token) → Parser
  | [] => parser
  | tokens :: rest => heardAll (parser.heard tokens).2 rest

theorem parseAll_run (parser : Parser) (utterances : List (List Token)) (journal : Log.Journal) :
    ((parser.parseAll utterances).run journal).1 =
      (parser.hearAll utterances, parser.heardAll utterances) := by
  have hafter : ((parser.parseAll utterances).run journal).1.2 = parser.heardAll utterances := by
    induction utterances generalizing parser journal with
    | nil => rfl
    | cons tokens rest ih =>
        have hrun : ((parser.parseAll (tokens :: rest)).run journal).1.2 =
            ((((parser.parse tokens).run journal).1.2.parseAll rest).run
              ((parser.parse tokens).run journal).2).1.2 := rfl
        rw [hrun, ih, parse_fst, heardAll]
  rw [← parseAll_fst, ← hafter]

/-- The utterances of a run that were accepted in it. -/
def accepted (utterances : List (List Token))
    (results : List (Except ParseError ParseOutcome)) : List (List Token) :=
  ((utterances.zip results).filter fun entry => entry.2.isOk).map Prod.fst

theorem accepted_cons (tokens : List Token) (rest : List (List Token))
    (result : Except ParseError ParseOutcome) (results : List (Except ParseError ParseOutcome)) :
    accepted (tokens :: rest) (result :: results) =
      if result.isOk then tokens :: accepted rest results else accepted rest results := by
  unfold accepted
  rw [List.zip_cons_cons, List.filter_cons]
  split <;> rfl

/-- A run without the utterances that were rejected in it has the other results,
and ends in a parser like the one that heard them all. -/
theorem hearAll_accepted (utterances : List (List Token)) {parser other : Parser}
    (h : parser.Alike other) :
    other.hearAll (accepted utterances (parser.hearAll utterances)) =
        (parser.hearAll utterances).filter Except.isOk ∧
      (parser.heardAll utterances).Alike
        (other.heardAll (accepted utterances (parser.hearAll utterances))) := by
  induction utterances generalizing parser other with
  | nil => exact ⟨rfl, h⟩
  | cons tokens rest ih =>
      rw [hearAll, heardAll, accepted_cons, List.filter_cons]
      cases hresult : (parser.heard tokens).1 with
      | error error =>
          obtain ⟨-, hafter⟩ := eq_of_heard_error hresult
          rw [hafter]
          exact ih h.rejecting
      | ok outcome =>
          obtain ⟨hresults, hparser⟩ := ih (h.heard_snd hresult)
          have hother := h.heard_fst tokens
          rw [hresult] at hother
          refine ⟨?_, hparser⟩
          change hearAll other (tokens :: _) = .ok outcome :: _
          rw [hearAll, hother, hresults]

end Parser

/-- A rejected utterance leaves the parser as it was but for the counts of
utterances and rejections. Nothing was evaluated for it, no event of the
evaluation was noted, and one event was logged, which says neither how a
derivation was chosen or evaluated nor that the session turned. So in a run the
rejected utterances may be left out: the others have the same results, and the
parser ends in the same session. -/
theorem rejected_leaves_no_trace :
    (∀ (parser : Parser) (tokens : List Token) (journal : Log.Journal) (error : ParseError),
      let run := (parser.parse tokens).run journal
      run.1.1 = .error error →
      run.1.2 = { parser with stats := { parser.stats with
        utterances := parser.stats.utterances + 1
        rejected := parser.stats.rejected + 1 } } ∧
      (Parser.interpretTokens parser.entry.rule tokens parser.session).2 =
        { session := parser.session, reductions := 0, notes := #[] } ∧
      ∃ event : Log.Event, run.2.service? = journal.service?.map (·.log event) ∧
        event.code = error.code ∧
        event.code ∉ [Log.Code.fellAsleep, .wokeUp, .chartSummary, .reduction]) ∧
    (∀ (parser : Parser) (utterances : List (List Token)) (journal journal' : Log.Journal),
      let run := ((parser.parseAll utterances).run journal).1
      let again := ((parser.parseAll (Parser.accepted utterances run.1)).run journal').1
      again.1 = run.1.filter Except.isOk ∧
      again.2.session = run.2.session ∧ run.2.Alike again.2) := by
  refine ⟨fun parser tokens journal error => ?_, fun parser utterances journal journal' => ?_⟩
  · intro run h
    have hrun : run.1 = parser.heard tokens := parser.parse_fst tokens journal
    rw [hrun] at h ⊢
    obtain ⟨hinterpreted, hafter⟩ := Parser.eq_of_heard_error h
    obtain ⟨event, hcode, hservice⟩ := Parser.parse_service? h journal
    refine ⟨hafter, ?_, event, hservice, hcode, ?_⟩
    · rw [hinterpreted]
    · rw [hcode]
      cases error <;> simp only [ParseError.code] <;> decide
  · simp only [Parser.parseAll_run]
    have hself : parser.Alike parser := ⟨parser.stats.utterances, parser.stats.rejected, rfl⟩
    obtain ⟨hresults, halike⟩ := Parser.hearAll_accepted utterances hself
    exact ⟨hresults, halike.session_eq, halike⟩

/-- An utterance that goes on after the sleep phrase is rejected, and the session
stays awake. -/
theorem overlong_sleepPhrase_leaves_no_trace :
    let parser : Parser := { entry := .strict }
    let tokens := [Token.ofWord "go" 0, .ofWord "to" 1, .ofWord "sleep" 2, .ofWord "up" 3,
      .closing 4]
    ∃ error, ((parser.parse tokens).run {}).1.1 = .error error ∧
      ((parser.parse tokens).run {}).1.2 =
        { parser with stats := { utterances := 1, rejected := 1 } } := by
  intro parser tokens
  cases hresult : ((parser.parse tokens).run {}).1.1 with
  | error error =>
      exact ⟨error, rfl, (rejected_leaves_no_trace.1 parser tokens {} error hresult).1⟩
  | ok outcome =>
      rw [Parser.parse_fst] at hresult
      obtain ⟨verdict, hfits, -⟩ := Parser.exists_verdict_of_heard hresult
      change verdict.Fits ["go", "to", "sleep", "up", Token.endLabel] at hfits
      cases verdict with
      | silence => exact absurd (show _ = [Token.endLabel] from hfits) (by decide)
      | turn session =>
          cases session with
          | awake =>
              exact absurd (show _ = Lexicon.startListening ++ [Token.endLabel] from hfits)
                (by decide)
          | asleep =>
              exact absurd (show _ = Lexicon.goToSleep ++ [Token.endLabel] from hfits) (by decide)
      | chain first rest =>
          obtain ⟨label, hlabel, hhead⟩ := hfits
          cases hhead
          exact absurd hlabel (by decide +kernel)

end SpokenKeys
