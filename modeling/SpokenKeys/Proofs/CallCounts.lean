import SpokenKeys.Proofs.Agreement
import SpokenKeys.Proofs.Ambiguity
import SpokenKeys.Proofs.WordCounts

/-!
The counts of a pipeline over a run of calls. The tokenizer counts an utterance when it
has its tokens, the parser before it looks at them; so both count the calls that get as
far as the parser. Every such call is accepted or rejected, and an accepted one is
suppressed if the session slept through it; then nothing is to be done.
-/

namespace SpokenKeys

/-- Nothing is to be done for an utterance that is accepted asleep. -/
theorem Parser.idle_of_heard_asleep (parser : Parser) {tokens : List Token}
    {outcome : ParseOutcome} (h : (parser.heard tokens).1 = .ok outcome)
    (hasleep : parser.session.isSleeping = true) : outcome.action.isIdle = true := by
  obtain ⟨verdict, -, hhears⟩ := exists_verdict_of_heard h
  obtain ⟨same, hsame, haction, -⟩ := hhears parser rfl
  obtain rfl := Except.ok.inj (h.symm.trans hsame)
  rw [haction]
  cases hsession : parser.session with
  | awake =>
      rw [hsession] at hasleep
      cases hasleep
  | asleep => cases verdict <;> rfl

/-- Silence is accepted, and the session stays what it was. -/
theorem Parser.heard_silence (parser : Parser) :
    ∃ outcome, (parser.heard [.closing 0]).1 = .ok outcome ∧
      (parser.heard [.closing 0]).2.session = parser.session := by
  have hok (entry : Entry) : (Parser.heard { entry } [.closing 0]).1.isOk = true := by
    cases entry <;> decide +kernel
  obtain ⟨accepted, haccepted⟩ := eq_ok_of_isOk (hok parser.entry)
  obtain ⟨verdict, hfits, hhears⟩ := exists_verdict_of_heard haccepted
  obtain ⟨outcome, houtcome, -, hafter⟩ := hhears parser rfl
  refine ⟨outcome, houtcome, hafter.trans ?_⟩
  cases verdict with
  | silence => rfl
  | chain first rest => rfl
  | turn target =>
      -- A session turns at a phrase only.
      have hcore (entry : Entry) : entry.core [Token.endLabel] = [Token.endLabel] := by
        cases entry <;> decide
      cases target with
      | asleep => exact absurd ((hcore parser.entry).symm.trans hfits) (by decide)
      | awake => exact absurd ((hcore parser.entry).symm.trans hfits) (by decide)

namespace Pipeline

/-- A call of a pipeline: what it returned, and the session before and after it. -/
structure Call where
  before : Session
  reply : Except PipelineError PipelineResult
  after : Session

namespace Call

def isAccepted (call : Call) : Bool := call.reply.isOk

/-- Whether the text had no tokens. -/
def failedLexically (call : Call) : Bool :=
  match call.reply with
  | .error (.lexical _) => true
  | _ => false

/-- Whether the text had tokens, of which nothing could be made. -/
def isRejected (call : Call) : Bool := !call.isAccepted && !call.failedLexically

/-- Whether the session slept before and after a call that was accepted. -/
def isSuppressed (call : Call) : Bool :=
  call.isAccepted && (call.before.isSleeping && call.after.isSleeping)

/-- A call that had tokens is accepted or rejected. -/
theorem countP_parsed (calls : List Call) :
    calls.countP (fun call => !call.failedLexically) =
      calls.countP isAccepted + calls.countP isRejected := by
  induction calls with
  | nil => rfl
  | cons call rest ih =>
      have hcall : (if !call.failedLexically then 1 else 0) =
          (if call.isAccepted then 1 else 0) + if call.isRejected then 1 else 0 := by
        obtain ⟨before, reply, after⟩ := call
        cases reply with
        | ok result => rfl
        | error error => cases error <;> rfl
      rw [List.countP_cons, List.countP_cons, List.countP_cons, ih, hcall]
      omega

theorem countP_isSuppressed_le (calls : List Call) :
    calls.countP isSuppressed ≤ calls.countP isAccepted := by
  apply List.countP_mono_left
  intro call _ hsuppressed
  rw [isSuppressed, Bool.and_eq_true] at hsuppressed
  exact hsuppressed.1

end Call

/-- Texts processed one after the other, each in some microseconds. -/
def processAll (pipeline : Pipeline) : List (String × Nat) → Log.Logging (List Call × Pipeline)
  | [] => return ([], pipeline)
  | (text, micros) :: rest => do
      let (reply, after) ← pipeline.process text micros
      let (calls, final) ← after.processAll rest
      return (⟨pipeline.parser.session, reply, after.parser.session⟩ :: calls, final)

/-- How calls move the counts of a pipeline. -/
structure Accounts (before : Pipeline) (calls : List Call) (after : Pipeline) : Prop where
  tokenized : after.tokenizer.metrics.utterances =
    before.tokenizer.metrics.utterances + calls.countP fun call => !call.failedLexically
  utterances : after.parser.stats.utterances =
    before.parser.stats.utterances + calls.countP fun call => !call.failedLexically
  accepted : after.parser.stats.accepted =
    before.parser.stats.accepted + calls.countP Call.isAccepted
  rejected : after.parser.stats.rejected =
    before.parser.stats.rejected + calls.countP Call.isRejected
  suppressed : after.parser.stats.suppressed =
    before.parser.stats.suppressed + calls.countP Call.isSuppressed
  ambiguous : after.parser.stats.ambiguous = before.parser.stats.ambiguous
  idle : ∀ call ∈ calls, call.isSuppressed = true →
    ∀ result, call.reply = .ok result → result.isNoop = true

variable {pipeline before middle after : Pipeline} {call : Call} {calls : List Call}

theorem Accounts.nil (pipeline : Pipeline) : Accounts pipeline [] pipeline where
  tokenized := rfl
  utterances := rfl
  accepted := rfl
  rejected := rfl
  suppressed := rfl
  ambiguous := rfl
  idle := by simp

theorem Accounts.cons (step : Accounts before [call] middle) (rest : Accounts middle calls after) :
    Accounts before (call :: calls) after := by
  have hcount : ∀ counted : Call → Bool,
      (call :: calls).countP counted = [call].countP counted + calls.countP counted := by
    intro counted
    rw [← List.countP_append, List.singleton_append]
  exact {
    tokenized := by rw [rest.tokenized, step.tokenized, hcount, Nat.add_assoc]
    utterances := by rw [rest.utterances, step.utterances, hcount, Nat.add_assoc]
    accepted := by rw [rest.accepted, step.accepted, hcount, Nat.add_assoc]
    rejected := by rw [rest.rejected, step.rejected, hcount, Nat.add_assoc]
    suppressed := by rw [rest.suppressed, step.suppressed, hcount, Nat.add_assoc]
    ambiguous := rest.ambiguous.trans step.ambiguous
    idle := by
      intro other hmem
      rcases List.mem_cons.mp hmem with rfl | hmem
      · exact step.idle other List.mem_cons_self
      · exact rest.idle other hmem }

/-- What a call of a pipeline comes to. -/
def called (pipeline : Pipeline) (text : String) : Call :=
  let (reply, after) := pipeline.processed text
  ⟨pipeline.parser.session, reply, after.parser.session⟩

variable {text : String} {stream : TokenStream}

theorem parser_of_tokenized (h : (pipeline.tokenizer.tokenizeText text).1 = .ok stream) :
    (pipeline.processed text).2.parser = (pipeline.parser.heard stream.tokens).2 := by
  rw [processed]
  dsimp only
  rw [h]
  dsimp only
  cases (pipeline.parser.heard stream.tokens).1 <;> rfl

theorem called_of_accepted {outcome : ParseOutcome}
    (htokens : (pipeline.tokenizer.tokenizeText text).1 = .ok stream)
    (h : (pipeline.parser.heard stream.tokens).1 = .ok outcome) :
    pipeline.called text = ⟨pipeline.parser.session,
      .ok (.make stream outcome (pipeline.parser.heard stream.tokens).2.session),
      (pipeline.parser.heard stream.tokens).2.session⟩ := by
  obtain ⟨hreply, hparser⟩ := processed_of_accepted htokens h
  rw [called]
  dsimp only
  rw [hreply, hparser]

theorem called_of_rejected {error : ParseError}
    (htokens : (pipeline.tokenizer.tokenizeText text).1 = .ok stream)
    (h : (pipeline.parser.heard stream.tokens).1 = .error error) :
    pipeline.called text =
      ⟨pipeline.parser.session, .error (.syntactic error), pipeline.parser.session⟩ := by
  rw [called]
  dsimp only
  rw [processed_of_rejected htokens h, parser_of_tokenized htokens,
    Parser.session_of_heard_error h]

theorem called_of_lexical {error : LexicalError}
    (h : (pipeline.tokenizer.tokenizeText text).1 = .error error) :
    pipeline.called text =
      ⟨pipeline.parser.session, .error (.lexical error), pipeline.parser.session⟩ := by
  rw [called, processed]
  dsimp only
  rw [h]

/-- A text without tokens moves none of the counts. -/
theorem accounts_of_lexical {error : LexicalError}
    (h : (pipeline.tokenizer.tokenizeText text).1 = .error error) :
    Accounts pipeline [pipeline.called text] (pipeline.processed text).2 := by
  have hprocessed : pipeline.processed text = (.error (.lexical error),
      { pipeline with tokenizer := (pipeline.tokenizer.tokenizeText text).2 }) := by
    rw [processed]
    dsimp only
    rw [h]
  have htokenizer := pipeline.tokenizer.tokenizeText_snd text
  rw [Tokenizer.accepts_eq pipeline.tokenizer, h] at htokenizer
  rw [called, hprocessed]
  dsimp only
  rw [htokenizer]
  exact {
    tokenized := rfl
    utterances := rfl
    accepted := rfl
    rejected := rfl
    suppressed := rfl
    ambiguous := rfl
    idle := by
      intro call hmem hsuppressed
      rw [List.mem_singleton.mp hmem] at hsuppressed
      cases hsuppressed }

/-- A text with tokens moves the counts of the parser as hearing them does. -/
theorem accounts_of_stream (h : (pipeline.tokenizer.tokenizeText text).1 = .ok stream) :
    Accounts pipeline [pipeline.called text] (pipeline.processed text).2 := by
  have hmetrics : (pipeline.tokenizer.tokenizeText text).2.metrics.utterances =
      pipeline.tokenizer.metrics.utterances + 1 := by
    rw [Tokenizer.tokenizeText_snd, Tokenizer.accepts_eq pipeline.tokenizer, h]
    rfl
  have hambiguous := pipeline.parser.heard_ambiguous stream.tokens
  rw [called, processed]
  dsimp only
  rw [h]
  dsimp only
  rcases pipeline.parser.heard_cases stream.tokens with
    ⟨parsed, final, outcome, -, -, hheard⟩ | ⟨error, -, -, hheard⟩
  · have hidle : pipeline.parser.session.isSleeping = true → outcome.action.isIdle = true :=
      pipeline.parser.idle_of_heard_asleep (by rw [hheard])
    rw [hheard] at hambiguous ⊢
    exact {
      tokenized := hmetrics
      utterances := rfl
      accepted := rfl
      rejected := rfl
      suppressed := by
        rw [List.countP_singleton]
        rfl
      ambiguous := hambiguous
      idle := by
        intro call hmem hsuppressed result hresult
        obtain rfl := List.mem_singleton.mp hmem
        obtain rfl := Except.ok.inj hresult
        rw [Call.isSuppressed, Bool.and_eq_true, Bool.and_eq_true] at hsuppressed
        exact hidle hsuppressed.2.1 }
  · rw [hheard] at hambiguous ⊢
    exact {
      tokenized := hmetrics
      utterances := rfl
      accepted := rfl
      rejected := rfl
      suppressed := rfl
      ambiguous := hambiguous
      idle := by
        intro call hmem hsuppressed
        rw [List.mem_singleton.mp hmem] at hsuppressed
        cases hsuppressed }

theorem accounts_processed (pipeline : Pipeline) (text : String) :
    Accounts pipeline [pipeline.called text] (pipeline.processed text).2 := by
  cases htokens : (pipeline.tokenizer.tokenizeText text).1 with
  | error error => exact accounts_of_lexical htokens
  | ok stream => exact accounts_of_stream htokens

/-- What the calls of a run come to, and what becomes of the pipeline. -/
def processedAll (pipeline : Pipeline) : List String → List Call × Pipeline
  | [] => ([], pipeline)
  | text :: rest =>
      let (calls, final) := (pipeline.processed text).2.processedAll rest
      (pipeline.called text :: calls, final)

theorem processAll_fst (pipeline : Pipeline) (texts : List (String × Nat))
    (journal : Log.Journal) :
    ((pipeline.processAll texts).run journal).1 =
      pipeline.processedAll (texts.map Prod.fst) := by
  induction texts generalizing pipeline journal with
  | nil => rfl
  | cons head rest ih =>
      obtain ⟨text, micros⟩ := head
      have hrun : ((pipeline.processAll ((text, micros) :: rest)).run journal).1 =
          let reply := ((pipeline.process text micros).run journal).1
          let (calls, final) := ((reply.2.processAll rest).run
            ((pipeline.process text micros).run journal).2).1
          (⟨pipeline.parser.session, reply.1, reply.2.parser.session⟩ :: calls, final) := rfl
      have hrest := ih (pipeline.processed text).2 ((pipeline.process text micros).run journal).2
      rw [hrun, process_fst, List.map_cons, processedAll, ← hrest]
      rfl

theorem processedAll_accounts (pipeline : Pipeline) (texts : List String) :
    (pipeline.processedAll texts).1.length = texts.length ∧
      Accounts pipeline (pipeline.processedAll texts).1 (pipeline.processedAll texts).2 := by
  induction texts generalizing pipeline with
  | nil => exact ⟨rfl, .nil pipeline⟩
  | cons text rest ih =>
      obtain ⟨hlength, hrest⟩ := ih (pipeline.processed text).2
      exact ⟨congrArg (· + 1) hlength, (pipeline.accounts_processed text).cons hrest⟩

end Pipeline

open Pipeline

/-- The counts of a pipeline around a fresh parser reconcile over every run of calls.
Tokenizer and parser count the same utterances, which are accepted or rejected, and are
all the calls that had tokens; accepted are those that returned a result, and none of
them with a choice left; suppressed are those of them that the session slept through, and
then there is nothing to execute. -/
theorem counters_reconcile (entry : Entry) (session : Session)
    (preferences : GrammarPreferences) (trace? : Option Log.MemoryLog)
    (lexical : LexicalPreferences) (texts : List (String × Nat)) (journal : Log.Journal) :
    let pipeline := ofParts { entry, session, preferences, trace? } lexical
    let (calls, final) := ((pipeline.processAll texts).run journal).1
    let stats := final.parser.stats
    calls.length = texts.length ∧
      final.tokenizer.metrics.utterances = stats.utterances ∧
      stats.utterances = stats.accepted + stats.rejected ∧
      stats.utterances = calls.countP (fun call => !call.failedLexically) ∧
      stats.accepted = calls.countP Call.isAccepted ∧
      stats.ambiguous = 0 ∧
      stats.suppressed = calls.countP Call.isSuppressed ∧
      stats.suppressed ≤ stats.accepted ∧
      ∀ call ∈ calls, call.isSuppressed = true →
        ∃ result, call.reply = .ok result ∧ result.isNoop = true := by
  intro pipeline
  obtain ⟨hlength, haccounts⟩ := pipeline.processedAll_accounts (texts.map Prod.fst)
  rw [List.length_map] at hlength
  rw [processAll_fst]
  generalize pipeline.processedAll (texts.map Prod.fst) = run at *
  obtain ⟨calls, final⟩ := run
  dsimp only at hlength haccounts ⊢
  have htokenized := haccounts.tokenized.trans (Nat.zero_add _)
  have hutterances := haccounts.utterances.trans (Nat.zero_add _)
  have haccepted := haccounts.accepted.trans (Nat.zero_add _)
  have hrejected := haccounts.rejected.trans (Nat.zero_add _)
  have hsuppressed := haccounts.suppressed.trans (Nat.zero_add _)
  refine ⟨hlength, htokenized.trans hutterances.symm, ?_, hutterances, haccepted,
    haccounts.ambiguous, hsuppressed, ?_, ?_⟩
  · rw [hutterances, haccepted, hrejected, Call.countP_parsed]
  · rw [hsuppressed, haccepted]
    exact Call.countP_isSuppressed_le calls
  · intro call hmem hcall
    obtain ⟨result, hreply⟩ := eq_ok_of_isOk (Bool.and_eq_true_iff.mp hcall).1
    exact ⟨result, hreply, haccounts.idle call hmem hcall result hreply⟩

/-- A text that is no sentence, silence while the session sleeps, and a word that is too
long: the first is rejected, the second accepted and suppressed, and the third counts for
nothing. -/
theorem rejected_suppressed_and_refused_counted :
    ∃ calls final,
      (((ofParts { entry := .strict, session := .asleep } {}).processAll
        [("sky", 0), ("", 0), ("".pushn 'x' 65, 0)]).run {}).1 = (calls, final) ∧
      calls.map Call.isAccepted = [false, true, false] ∧
      calls.map Call.failedLexically = [false, false, true] ∧
      calls.map Call.isSuppressed = [false, true, false] ∧
      final.tokenizer.metrics.utterances = 2 ∧ final.parser.stats.utterances = 2 ∧
      final.parser.stats.accepted = 1 ∧ final.parser.stats.rejected = 1 ∧
      final.parser.stats.suppressed = 1 := by
  -- The word "sky" wants a letter after it.
  have hsky (tokenizer : Tokenizer) (hentry : tokenizer.entry = .strict) :
      (tokenizer.tokenizeText "sky").1 = .ok ⟨[.ofWord "sky" 0, .closing 1]⟩ := by
    have hwords : Text.words "sky" = ["sky"] := by decide +kernel
    have hlabel : tokenizer.classify "sky" 0 = .ofWord "sky" 0 := by
      rw [Tokenizer.classify_eq, hentry, if_pos (by decide +kernel)]
    rw [Tokenizer.tokenizeText_eq_ok_iff, hwords, Tokenizer.labelled]
    exact ⟨by decide, by decide, by simp [hlabel]⟩
  have hsilent (tokenizer : Tokenizer) :
      (tokenizer.tokenizeText "").1 = .ok ⟨[.closing 0]⟩ := by
    have hwords : Text.words "" = [] := by decide +kernel
    rw [Tokenizer.tokenizeText_eq_ok_iff, hwords]
    exact ⟨by decide, by decide, rfl⟩
  have hlong (tokenizer : Tokenizer) :
      (tokenizer.tokenizeText ("".pushn 'x' 65)).1 = .error (.wordTooLong 0 65 64) := by
    have hwords : Text.words ("".pushn 'x' 65) = [] ++ "".pushn 'x' 65 :: [] := by decide +kernel
    exact Tokenizer.tokenizeText_tooLong (by rw [hwords]; decide) hwords (by decide) (by decide)
  have hrejected : (Parser.heard { entry := .strict, session := .asleep }
      [.ofWord "sky" 0, .closing 1]).1 = .error (.unexpectedToken (.closing 1)) := by
    decide +kernel
  obtain ⟨texts, htexts⟩ : ∃ texts, texts = [("sky", 0), ("", 0), ("".pushn 'x' 65, 0)] :=
    ⟨_, rfl⟩
  rw [← htexts]
  have hreconcile := counters_reconcile .strict .asleep {} none {} texts {}
  have hagrees : (ofParts { entry := .strict, session := .asleep } {}).tokenizer.entry = .strict :=
    rfl
  have hparser : (ofParts { entry := .strict, session := .asleep } {}).parser =
      { entry := .strict, session := .asleep } := rfl
  -- Nothing else is used of the pipeline, and it is not to be evaluated.
  generalize ofParts { entry := .strict, session := .asleep } {} = pipeline
    at hreconcile hagrees hparser ⊢
  rw [← hparser] at hrejected
  have hsession : pipeline.parser.session = .asleep := congrArg Parser.session hparser
  have hfirst : pipeline.called "sky" =
      ⟨.asleep, .error (.syntactic (.unexpectedToken (.closing 1))), .asleep⟩ := by
    rw [called_of_rejected (hsky pipeline.tokenizer hagrees) hrejected, hsession]
  -- After the first text the parser is asleep as before, so the silence is suppressed.
  obtain ⟨second, hsecond⟩ : ∃ second, second = (pipeline.processed "sky").2 := ⟨_, rfl⟩
  have hasleep : second.parser.session = .asleep := by
    rw [hsecond, parser_of_tokenized (hsky pipeline.tokenizer hagrees),
      Parser.session_of_heard_error hrejected, hsession]
  obtain ⟨outcome, houtcome, hkept⟩ := second.parser.heard_silence
  have hcalled : second.called "" =
      ⟨.asleep, .ok (.make ⟨[.closing 0]⟩ outcome .asleep), .asleep⟩ := by
    rw [called_of_accepted (hsilent second.tokenizer) houtcome, hkept, hasleep]
  obtain ⟨third, hthird⟩ : ∃ third, third = (second.processed "").2 := ⟨_, rfl⟩
  have hlast : third.called ("".pushn 'x' 65) =
      ⟨.asleep, .error (.lexical (.wordTooLong 0 65 64)), .asleep⟩ := by
    rw [called_of_lexical (hlong third.tokenizer), hthird,
      parser_of_tokenized (hsilent second.tokenizer), hkept, hasleep]
  obtain ⟨final, hrun⟩ : ∃ final, ((pipeline.processAll texts).run {}).1 =
      ([⟨.asleep, .error (.syntactic (.unexpectedToken (.closing 1))), .asleep⟩,
        ⟨.asleep, .ok (.make ⟨[.closing 0]⟩ outcome .asleep), .asleep⟩,
        ⟨.asleep, .error (.lexical (.wordTooLong 0 65 64)), .asleep⟩], final) := by
    refine ⟨(third.processed ("".pushn 'x' 65)).2, ?_⟩
    rw [processAll_fst, htexts]
    simp only [List.map_cons, List.map_nil, processedAll, ← hsecond, ← hthird, hfirst, hcalled,
      hlast]
  simp only [hrun] at hreconcile
  obtain ⟨-, htokenized, hsum, hutterances, haccepted, -, hsuppressed, -, -⟩ := hreconcile
  have htwo : final.parser.stats.utterances = 2 := hutterances
  have hone : final.parser.stats.accepted = 1 := haccepted
  exact ⟨_, _, hrun, rfl, rfl, rfl, htokenized.trans htwo, htwo, hone, by omega, hsuppressed⟩

end SpokenKeys
