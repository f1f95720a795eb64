import SpokenKeys.Proofs.Utterances

/-!
The sleep gate. Whether an utterance is accepted has nothing to do with the
session; what it comes to does only for commands, which a sleeping session
swallows. So over a whole run nothing is done between a sleep phrase and the
next wake phrase.
-/

namespace SpokenKeys

open Commands

theorem exists_verdict {entry : Entry} {tokens : List Token} {chart : Chart} {tree : Derivation}
    {ties : Nat} (h : chosen grammar entry.rule tokens = .ok (chart, tree, ties)) :
    ∃ verdict : Verdict, verdict.Fits (entry.core (tokens.map Token.kind)) ∧
      verdict.Decides tokens tree :=
  verdict_of_covers entry (covers_of_chosen h)

namespace Parser

variable {parser : Parser} {tokens : List Token}

theorem interpretTokens_of_error {start : Rule} {error : ParseError}
    (h : chosen grammar start tokens = .error error) (session : Session) :
    (interpretTokens start tokens session).1 = .error error := by
  rw [interpretTokens, interpret_run, h]
  rfl

theorem interpretTokens_of_decides {start : Rule} {chart : Chart} {tree : Derivation} {ties : Nat}
    (h : chosen grammar start tokens = .ok (chart, tree, ties)) {verdict : Verdict}
    (hdecides : verdict.Decides tokens tree) (session : Session) :
    ∃ parsed, (interpretTokens start tokens session).1 = .ok parsed ∧
      parsed.value = .node (verdict.action session) ∧
      (interpretTokens start tokens session).2.session = verdict.after session :=
  interpretTokens_of_runs h hdecides session

/-- An utterance without a derivation is an error and leaves the session alone. -/
theorem heard_of_error {error : ParseError}
    (h : chosen grammar parser.entry.rule tokens = .error error) :
    (parser.heard tokens).1 = .error error ∧ (parser.heard tokens).2.session = parser.session := by
  have hresult := interpretTokens_of_error h parser.session
  rw [heard]
  generalize interpretTokens parser.entry.rule tokens parser.session = interpreted at *
  obtain ⟨result, evaluation⟩ := interpreted
  dsimp only at hresult ⊢
  rw [hresult]
  exact ⟨rfl, rfl⟩

/-- Every other utterance is accepted, with the verdict of its derivation. -/
theorem heard_of_decides {chart : Chart} {tree : Derivation} {ties : Nat}
    (h : chosen grammar parser.entry.rule tokens = .ok (chart, tree, ties)) {verdict : Verdict}
    (hdecides : verdict.Decides tokens tree) :
    ∃ outcome, (parser.heard tokens).1 = .ok outcome ∧
      outcome.action = verdict.action parser.session ∧
      (parser.heard tokens).2.session = verdict.after parser.session := by
  obtain ⟨parsed, hresult, hvalue, hsession⟩ := interpretTokens_of_decides h hdecides parser.session
  rw [heard]
  generalize interpretTokens parser.entry.rule tokens parser.session = interpreted at *
  obtain ⟨result, evaluation⟩ := interpreted
  dsimp only at hresult hsession ⊢
  have hbind : result.bind outcomeOf = .ok ⟨verdict.action parser.session, parsed.ties,
      parsed.reductions, parsed.chartItems⟩ := by
    rw [hresult, Except.bind, outcomeOf, hvalue]
  rw [hbind]
  exact ⟨_, rfl, rfl, hsession⟩

theorem heard_entry (parser : Parser) (tokens : List Token) :
    (parser.heard tokens).2.entry = parser.entry := by
  rw [heard]
  generalize interpretTokens parser.entry.rule tokens parser.session = interpreted
  dsimp only
  split <;> rfl

/-- An accepted utterance has a verdict, by which every parser with the same
entry point hears it. -/
theorem exists_verdict_of_heard {outcome : ParseOutcome}
    (h : (parser.heard tokens).1 = .ok outcome) :
    ∃ verdict : Verdict, verdict.Fits (parser.entry.core (tokens.map Token.kind)) ∧
      ∀ other : Parser, other.entry = parser.entry →
        ∃ outcome, (other.heard tokens).1 = .ok outcome ∧
          outcome.action = verdict.action other.session ∧
          (other.heard tokens).2.session = verdict.after other.session := by
  cases hchosen : chosen grammar parser.entry.rule tokens with
  | error error =>
      rw [(heard_of_error hchosen).1] at h
      cases h
  | ok choice =>
      obtain ⟨chart, tree, ties⟩ := choice
      obtain ⟨verdict, hfits, hdecides⟩ := exists_verdict hchosen
      refine ⟨verdict, hfits, fun other hentry => ?_⟩
      rw [← hentry] at hchosen
      exact heard_of_decides hchosen hdecides

theorem session_of_heard_error {error : ParseError} (h : (parser.heard tokens).1 = .error error) :
    (parser.heard tokens).2.session = parser.session := by
  cases hchosen : chosen grammar parser.entry.rule tokens with
  | error fault => exact (heard_of_error hchosen).2
  | ok choice =>
      obtain ⟨chart, tree, ties⟩ := choice
      obtain ⟨verdict, -, hdecides⟩ := exists_verdict hchosen
      obtain ⟨outcome, houtcome, -⟩ := heard_of_decides hchosen hdecides
      rw [h] at houtcome
      cases houtcome

theorem heard_error_iff (other : Parser) (hentry : other.entry = parser.entry)
    (error : ParseError) :
    (other.heard tokens).1 = .error error ↔ (parser.heard tokens).1 = .error error := by
  cases hchosen : chosen grammar parser.entry.rule tokens with
  | error fault =>
      have hother := hchosen
      rw [← hentry] at hother
      rw [(heard_of_error hchosen).1, (heard_of_error hother).1]
  | ok choice =>
      obtain ⟨chart, tree, ties⟩ := choice
      obtain ⟨verdict, -, hdecides⟩ := exists_verdict hchosen
      obtain ⟨outcome, houtcome, -⟩ := heard_of_decides hchosen hdecides
      rw [← hentry] at hchosen
      obtain ⟨outcome', houtcome', -⟩ := heard_of_decides hchosen hdecides
      rw [houtcome, houtcome']
      constructor <;> intro h <;> cases h

/-- What a parser returns for a run of utterances, and what it becomes. -/
def parseAll (parser : Parser) :
    List (List Token) → Log.Logging (List (Except ParseError ParseOutcome) × Parser)
  | [] => return ([], parser)
  | tokens :: rest => do
      let (result, parser) ← parser.parse tokens
      let (results, parser) ← parseAll parser rest
      return (result :: results, parser)

def hearAll (parser : Parser) : List (List Token) → List (Except ParseError ParseOutcome)
  | [] => []
  | tokens :: rest => (parser.heard tokens).1 :: hearAll (parser.heard tokens).2 rest

theorem parseAll_fst (parser : Parser) (utterances : List (List Token)) (journal : Log.Journal) :
    ((parser.parseAll utterances).run journal).1.1 = parser.hearAll utterances := by
  induction utterances generalizing parser journal with
  | nil => rfl
  | cons tokens rest ih =>
      have hrun : ((parser.parseAll (tokens :: rest)).run journal).1.1 =
          ((parser.parse tokens).run journal).1.1 ::
            ((((parser.parse tokens).run journal).1.2.parseAll rest).run
              ((parser.parse tokens).run journal).2).1.1 := rfl
      rw [hrun, ih, parse_fst, hearAll]

/-- The utterance at a place of a run is accepted, and is the given words after
any filler words. -/
def AcceptedAs (entry : Entry) (utterances : List (List Token))
    (results : List (Except ParseError ParseOutcome)) (words : List String) (place : Nat) : Prop :=
  ∃ tokens outcome, utterances[place]? = some tokens ∧ results[place]? = some (.ok outcome) ∧
    entry.core (tokens.map Token.kind) = words ++ [Token.endLabel]

end Parser

/-- What a phrase that turns the session is, is nothing else. -/
theorem Verdict.Fits.eq_turn {verdict : Verdict} {core : List String} (h : verdict.Fits core)
    (session : Session) (hturn : (Verdict.turn session).Fits core) : verdict = .turn session := by
  cases verdict with
  | silence =>
      cases session <;> exact absurd (h.symm.trans hturn) (by decide)
  | turn other =>
      cases session <;> cases other <;>
        first | rfl | exact absurd (h.symm.trans hturn) (by decide)
  | chain first rest =>
      obtain ⟨label, hlabel, hhead⟩ := h
      cases session
      all_goals
        rw [show core = _ from hturn] at hhead
        cases hhead
        exact absurd hlabel (by decide +kernel)

namespace Parser

variable {outcome : ParseOutcome}

/-- A sleeping parser does nothing, and sleeps on until a wake phrase. -/
theorem idle_of_asleep (parser : Parser) (utterances : List (List Token)) {place : Nat}
    (hsession : parser.session = .asleep)
    (hwake : ∀ earlier, earlier ≤ place → ¬ AcceptedAs parser.entry utterances
      (parser.hearAll utterances) Lexicon.startListening earlier)
    (h : (parser.hearAll utterances)[place]? = some (.ok outcome)) : outcome.action = .idle := by
  induction place generalizing parser utterances with
  | zero =>
      cases utterances with
      | nil => cases h
      | cons tokens rest =>
          have hheard : (parser.heard tokens).1 = .ok outcome := Option.some.inj h
          obtain ⟨verdict, -, hhears⟩ := exists_verdict_of_heard hheard
          obtain ⟨outcome', houtcome, haction, -⟩ := hhears parser rfl
          rw [hheard] at houtcome
          cases houtcome
          rw [haction, hsession]
          cases verdict <;> rfl
  | succ place ih =>
      cases utterances with
      | nil => cases h
      | cons tokens rest =>
          have hentry := parser.heard_entry tokens
          refine ih (parser.heard tokens).2 rest ?_ ?_ h
          · cases hheard : (parser.heard tokens).1 with
            | error error => rw [session_of_heard_error hheard, hsession]
            | ok outcome' =>
                obtain ⟨verdict, hfits, hhears⟩ := exists_verdict_of_heard hheard
                obtain ⟨_, -, -, hafter⟩ := hhears parser rfl
                rw [hafter, hsession]
                cases verdict with
                | silence => rfl
                | chain first more => rfl
                | turn target =>
                    cases target with
                    | asleep => rfl
                    | awake =>
                        -- Only a wake phrase wakes the parser.
                        exact absurd ⟨tokens, outcome', rfl, congrArg some hheard, hfits⟩
                          (hwake 0 (Nat.zero_le _))
          · intro earlier hle
            rw [hentry]
            exact hwake (earlier + 1) (Nat.succ_le_succ hle)

/-- Between a sleep phrase and the next wake phrase nothing is done. -/
theorem idle_between (parser : Parser) (utterances : List (List Token)) {first place : Nat}
    (hle : first ≤ place)
    (hsleep : AcceptedAs parser.entry utterances (parser.hearAll utterances)
      Lexicon.goToSleep first)
    (hwake : ∀ middle, first < middle → middle ≤ place → ¬ AcceptedAs parser.entry utterances
      (parser.hearAll utterances) Lexicon.startListening middle)
    (h : (parser.hearAll utterances)[place]? = some (.ok outcome)) : outcome.action = .idle := by
  induction first generalizing parser utterances place with
  | zero =>
      obtain ⟨tokens, slept, htokens, hslept, hcore⟩ := hsleep
      cases utterances with
      | nil => cases htokens
      | cons head rest =>
          cases htokens
          have hheard : (parser.heard tokens).1 = .ok slept := Option.some.inj hslept
          obtain ⟨verdict, hfits, hhears⟩ := exists_verdict_of_heard hheard
          obtain rfl : verdict = .turn .asleep := hfits.eq_turn .asleep hcore
          obtain ⟨outcome', houtcome, haction, hafter⟩ := hhears parser rfl
          cases place with
          | zero =>
              -- The sleep phrase itself does nothing.
              have hsame : (parser.heard tokens).1 = .ok outcome := Option.some.inj h
              rw [houtcome] at hsame
              cases hsame
              exact haction
          | succ place =>
              refine idle_of_asleep (parser.heard tokens).2 rest hafter
                (fun earlier hearlier => ?_) h
              rw [heard_entry]
              exact hwake (earlier + 1) (Nat.succ_pos _) (Nat.succ_le_succ hearlier)
  | succ first ih =>
      cases utterances with
      | nil =>
          obtain ⟨tokens, slept, htokens, -⟩ := hsleep
          cases htokens
      | cons tokens rest =>
          cases place with
          | zero => exact absurd hle (Nat.not_succ_le_zero _)
          | succ place =>
              have hentry := parser.heard_entry tokens
              refine ih (parser.heard tokens).2 rest (Nat.le_of_succ_le_succ hle) ?_
                (fun middle hfirst hmiddle => ?_) h
              · rw [hentry]
                exact hsleep
              · rw [hentry]
                exact hwake (middle + 1) (Nat.succ_lt_succ hfirst) (Nat.succ_le_succ hmiddle)

end Parser

/-- The sleep gate: whether an utterance is accepted, and the error if it is not,
does not depend on the session. An accepted one turns the session by a sleep or
wake phrase, or is silent, or is a chain of commands that every awake parser
with the entry point returns and every sleeping one ignores. In a run nothing
is done between a sleep phrase and the next wake phrase. -/
theorem sleep_gate (parser : Parser) :
    (∀ (tokens : List Token) (journal : Log.Journal),
      let reply := ((parser.parse tokens).run journal).1
      let core := parser.entry.core (tokens.map Token.kind)
      (∀ (session : Session) (journal : Log.Journal) (error : ParseError),
        (({ parser with session }.parse tokens).run journal).1.1 = .error error ↔
          reply.1 = .error error) ∧
      ∀ outcome, reply.1 = .ok outcome →
        (core = Lexicon.goToSleep ++ [Token.endLabel] ∧
          outcome.action = .idle ∧ reply.2.session = .asleep) ∨
        (core = Lexicon.startListening ++ [Token.endLabel] ∧
          outcome.action = .idle ∧ reply.2.session = .awake) ∨
        (core = [Token.endLabel] ∧
          outcome.action = .idle ∧ reply.2.session = parser.session) ∨
        (core ≠ Lexicon.goToSleep ++ [Token.endLabel] ∧
          core ≠ Lexicon.startListening ++ [Token.endLabel] ∧ core ≠ [Token.endLabel] ∧
          reply.2.session = parser.session ∧
          ∃ first rest,
            outcome.action =
              (if parser.session.isSleeping then .idle else .chain (first :: rest)) ∧
            ∀ (other : Parser) (journal : Log.Journal),
              other.entry = parser.entry → other.session = .awake →
              ∃ outcome, ((other.parse tokens).run journal).1.1 = .ok outcome ∧
                outcome.action = .chain (first :: rest))) ∧
    (∀ (utterances : List (List Token)) (journal : Log.Journal) (first place : Nat)
        (outcome : ParseOutcome),
      let results := ((parser.parseAll utterances).run journal).1.1
      first ≤ place →
      Parser.AcceptedAs parser.entry utterances results Lexicon.goToSleep first →
      (∀ middle, first < middle → middle ≤ place →
        ¬ Parser.AcceptedAs parser.entry utterances results Lexicon.startListening middle) →
      results[place]? = some (.ok outcome) → outcome.action = .idle) := by
  refine ⟨fun tokens journal => ?_, fun utterances journal first place outcome => ?_⟩
  · simp only [Parser.parse_fst]
    refine ⟨fun session _ error => ?_, fun outcome houtcome => ?_⟩
    · exact Parser.heard_error_iff { parser with session } (Eq.refl parser.entry) error
    obtain ⟨verdict, hfits, hhears⟩ := Parser.exists_verdict_of_heard houtcome
    obtain ⟨outcome', hsame, haction, hafter⟩ := hhears parser rfl
    rw [houtcome] at hsame
    cases hsame
    cases verdict with
    | silence => exact .inr (.inr (.inl ⟨hfits, haction, hafter⟩))
    | turn target =>
        cases target with
        | asleep => exact .inl ⟨hfits, haction, hafter⟩
        | awake => exact .inr (.inl ⟨hfits, haction, hafter⟩)
    | chain first rest =>
        refine .inr (.inr (.inr ⟨?_, ?_, ?_, hafter, first, rest, haction, ?_⟩))
        · intro hcore
          have hturn := hfits.eq_turn .asleep hcore
          cases hturn
        · intro hcore
          have hturn := hfits.eq_turn .awake hcore
          cases hturn
        · intro hcore
          obtain ⟨label, hlabel, hhead⟩ := hfits
          rw [hcore] at hhead
          cases hhead
          exact absurd hlabel (by decide +kernel)
        · intro other _ hentry hawake
          obtain ⟨outcome', houtcome', haction', -⟩ := hhears other hentry
          refine ⟨outcome', houtcome', ?_⟩
          rw [haction', hawake]
          rfl
  · rw [Parser.parseAll_fst]
    exact Parser.idle_between parser utterances

/-- A step is taken while the session is awake. After the sleep phrase it is accepted
still, and nothing is done. -/
theorem step_ignored_after_sleep_phrase :
    let parser : Parser := { entry := .strict }
    let sleep := [Token.ofWord "go" 0, .ofWord "to" 1, .ofWord "sleep" 2, .closing 3]
    let step := [Token.ofWord "up" 0, .closing 1]
    (∃ outcome first rest, ((parser.parse step).run {}).1.1 = .ok outcome ∧
      outcome.action = .chain (first :: rest)) ∧
    (∃ outcome, ((parser.parse sleep).run {}).1.1 = .ok outcome ∧ outcome.action = .idle) ∧
    ((parser.parse sleep).run {}).1.2.session = .asleep ∧
    ∃ outcome, ((parser.parseAll [sleep, step]).run {}).1.1[1]? = some (.ok outcome) ∧
      outcome.action = .idle := by
  intro parser sleep step
  have haccepted : ∀ tokens ∈ [sleep, step],
      ∃ outcome, ((parser.parse tokens).run {}).1.1 = .ok outcome := by
    have hheard : ∀ tokens ∈ [sleep, step], (parser.heard tokens).1.isOk = true := by
      decide +kernel
    intro tokens hmem
    rw [Parser.parse_fst]
    exact eq_ok_of_isOk (hheard tokens hmem)
  obtain ⟨slept, hslept⟩ := haccepted sleep (by simp)
  obtain ⟨moved, hmoved⟩ := haccepted step (by simp)
  obtain ⟨hgate, hrun⟩ := sleep_gate parser
  -- The phrase turns the session, since its words are just these.
  have hturned : slept.action = .idle ∧ ((parser.parse sleep).run {}).1.2.session = .asleep := by
    rcases (hgate sleep {}).2 slept hslept with
      ⟨-, hdone⟩ | ⟨hcore, -⟩ | ⟨hcore, -⟩ | ⟨hcore, -⟩
    · exact hdone
    · exact absurd hcore (by decide)
    · exact absurd hcore (by decide)
    · exact absurd rfl hcore
  have hstep : ∃ first rest, moved.action = .chain (first :: rest) := by
    rcases (hgate step {}).2 moved hmoved with
      ⟨hcore, -⟩ | ⟨hcore, -⟩ | ⟨hcore, -⟩ | ⟨-, -, -, -, first, rest, haction, -⟩
    · exact absurd hcore (by decide)
    · exact absurd hcore (by decide)
    · exact absurd hcore (by decide)
    · exact ⟨first, rest, haction⟩
  -- Asleep, the step is accepted as it was.
  obtain ⟨ignored, hignored⟩ :
      ∃ outcome, ((parser.parseAll [sleep, step]).run {}).1.1[1]? = some (.ok outcome) := by
    rw [Parser.parse_fst] at hmoved
    obtain ⟨verdict, -, hhears⟩ := Parser.exists_verdict_of_heard hmoved
    obtain ⟨outcome, houtcome, -⟩ := hhears (parser.heard sleep).2 (parser.heard_entry sleep)
    refine ⟨outcome, ?_⟩
    rw [Parser.parseAll_fst]
    exact congrArg some houtcome
  have hasleep : Parser.AcceptedAs parser.entry [sleep, step]
      ((parser.parseAll [sleep, step]).run {}).1.1 Lexicon.goToSleep 0 := by
    refine ⟨sleep, slept, rfl, ?_, rfl⟩
    rw [Parser.parse_fst] at hslept
    rw [Parser.parseAll_fst]
    exact congrArg some hslept
  have hstill : ∀ middle, 0 < middle → middle ≤ 1 → ¬ Parser.AcceptedAs parser.entry [sleep, step]
      ((parser.parseAll [sleep, step]).run {}).1.1 Lexicon.startListening middle := by
    intro middle hpos hle
    obtain rfl : middle = 1 := Nat.le_antisymm hle hpos
    rintro ⟨tokens, -, htokens, -, hcore⟩
    cases htokens
    exact absurd hcore (by decide)
  obtain ⟨first, rest, haction⟩ := hstep
  exact ⟨⟨moved, first, rest, hmoved, haction⟩, ⟨slept, hslept, hturned.1⟩, hturned.2, ignored,
    hignored, hrun [sleep, step] {} 0 1 ignored (Nat.zero_le 1) hasleep hstill hignored⟩

end SpokenKeys
