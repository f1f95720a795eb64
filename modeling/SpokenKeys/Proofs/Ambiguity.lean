import SpokenKeys.Pipeline
import SpokenKeys.Proofs.Acceptance
import SpokenKeys.Proofs.Telling

/-!
No utterance can be understood in two ways. The command grammar fits its
outline, so labels have one derivation, reading it leaves no choice, and a
parser has nothing to count or to warn about however long it runs.
-/

namespace SpokenKeys

open Log (LogsOnly)

/-- By a grammar that fits an outline the derivation of a chart leaves no ties. -/
theorem Chart.derive_ties {outline : Outline} {grammar : Grammar}
    (hfits : outline.Fits grammar.table) {start : Rule} {tokens : List Token} {chart : Chart}
    (hbuild : build grammar start tokens = .ok chart) {tree : Derivation} {ties : Nat}
    (hderive : chart.derive = .ok (tree, ties)) : ties = 0 := by
  obtain ⟨rfl, -, hfaithful, -⟩ := faithful_of_build hbuild
  exact deriveNode_ties hfits hfaithful hderive

theorem interpretTokens_ties {start : Rule} {tokens : List Token} {session : Session}
    {parsed : Parsed} (h : (Parser.interpretTokens start tokens session).1 = .ok parsed) :
    parsed.ties = 0 := by
  rw [Parser.interpretTokens, interpret_run] at h
  cases hchosen : chosen Commands.grammar start tokens with
  | error error =>
      rw [hchosen] at h
      cases h
  | ok choice =>
      obtain ⟨chart, tree, ties⟩ := choice
      obtain ⟨hbuild, hderive⟩ := chosen_eq_ok hchosen
      have hzero := Chart.derive_ties Commands.fits hbuild hderive
      rw [hchosen, afterChoice] at h
      split at h
      · cases h
      · cases h
        exact hzero

theorem Parser.heard_ambiguous (parser : Parser) (tokens : List Token) :
    (parser.heard tokens).2.stats.ambiguous = parser.stats.ambiguous := by
  have hties : ∀ parsed, (interpretTokens parser.entry.rule tokens parser.session).1 = .ok parsed →
      parsed.ties = 0 := fun parsed => interpretTokens_ties
  rw [heard]
  generalize interpretTokens parser.entry.rule tokens parser.session = interpreted at *
  obtain ⟨result, evaluation⟩ := interpreted
  dsimp only
  cases houtcome : result.bind outcomeOf with
  | error error => rfl
  | ok outcome =>
      obtain ⟨parsed, hparsed, hof⟩ := eq_ok_of_bind houtcome
      have hzero : outcome.ties = 0 := (outcomeOf_ties hof).trans (hties parsed hparsed)
      simp [acceptedStats, hzero]

/-- What a parser can be asked for in the course of its life. -/
inductive Request where
  | utterance (tokens : List Token)
  | fragment (rule : Rule) (tokens : List Token)
  /-- A text is processed, which takes some microseconds. -/
  | text (text : String) (micros : Nat)
  | statistics

namespace Parser

def serve (parser : Parser) : Request → Log.Logging Parser
  | .utterance tokens => Prod.snd <$> parser.parse tokens
  | .fragment rule tokens => Prod.snd <$> parser.parseFragment rule tokens
  | .text text micros => Prod.snd <$> processUtterance parser text micros
  | .statistics => (fun _ => parser) <$> parser.logStats

/-- The parser after a run of requests. -/
def serveAll (parser : Parser) (requests : List Request) : Log.Logging Parser :=
  requests.foldlM serve parser

end Parser

def servedCodes : List Log.Code :=
  Parser.loggedCodes ++ [.tooManyWords, .wordTooLong, .tokenized, .plainDebug, .plainInfo]

theorem mem_servedCodes : ∀ code ∈ Parser.loggedCodes, code ∈ servedCodes :=
  fun _ hcode => List.mem_append_left _ hcode

theorem LexicalError.event_code (error : LexicalError) : error.event.code = error.code := by
  cases error <;> simp [LexicalError.event, LexicalError.code, Log.Event.error]

theorem Tokenizer.tokenize_logs (tokenizer : Tokenizer) (text : String) :
    LogsOnly (· ∈ servedCodes) (tokenizer.tokenize text) := by
  rw [tokenize]
  dsimp only
  generalize tokenizer.tokenizeText text = tokenized
  split
  next error _ =>
    refine LogsOnly.bind (LogsOnly.emit ?_) fun _ => LogsOnly.pure _
    rw [LexicalError.event_code]
    cases error <;> simp [LexicalError.code, servedCodes]
  next stream _ =>
    have hlast : LogsOnly (· ∈ servedCodes) (do
        Log.emit <| (Log.Event.info .tokenized "Utterance tokenized").withDetail
          "words" (toString (stream.length - 1))
        return (tokenized.1, tokenized.2)) := by
      refine LogsOnly.bind (LogsOnly.emit ?_) fun _ => LogsOnly.pure _
      rw [Log.Event.withDetail_code]
      simp [Log.Event.info, servedCodes]
    split
    · exact LogsOnly.bind (LogsOnly.emitDebug (by simp [servedCodes]) _ _) fun _ => hlast
    · exact hlast

theorem processUtterance_logs (parser : Parser) (text : String) (micros : Nat) :
    LogsOnly (· ∈ servedCodes) (processUtterance parser text micros) := by
  refine LogsOnly.bind (LogsOnly.emitDebug (by simp [servedCodes]) _ _) fun _ => ?_
  refine LogsOnly.bind ?_ fun tokens => ?_
  · refine LogsOnly.bind LogsOnly.get fun journal => ?_
    exact LogsOnly.bind (Tokenizer.tokenize_logs _ text) fun _ => LogsOnly.pure _
  cases tokens with
  | error error => exact LogsOnly.pure _
  | ok stream =>
      refine LogsOnly.bind (Parser.parse_logs mem_servedCodes parser stream.tokens
        fun parsed => interpretTokens_ties) fun result => ?_
      obtain ⟨outcome, parser⟩ := result
      cases outcome with
      | error error => exact LogsOnly.pure _
      | ok outcome =>
          refine LogsOnly.bind (LogsOnly.emit ?_) fun _ => LogsOnly.pure _
          rw [PipelineResult.event, Log.Event.withDetails_code]
          simp [Log.Event.info, servedCodes, Parser.loggedCodes]

namespace Parser

theorem serve_logs (parser : Parser) (request : Request) :
    LogsOnly (· ∈ servedCodes) (parser.serve request) := by
  cases request with
  | utterance tokens =>
      exact LogsOnly.map _ (parse_logs mem_servedCodes parser tokens
        fun parsed => interpretTokens_ties)
  | fragment rule tokens =>
      exact LogsOnly.map _ (parseFragment_logs mem_servedCodes parser rule tokens)
  | text text micros => exact LogsOnly.map _ (processUtterance_logs parser text micros)
  | statistics =>
      refine LogsOnly.map _ (LogsOnly.emit ?_)
      rw [Log.Event.withDetails_code]
      simp [Log.Event.info, servedCodes]

theorem serveAll_logs (parser : Parser) (requests : List Request) :
    LogsOnly (· ∈ servedCodes) (parser.serveAll requests) := by
  induction requests generalizing parser with
  | nil => exact LogsOnly.pure _
  | cons request rest ih =>
      rw [serveAll, List.foldlM_cons]
      exact LogsOnly.bind (serve_logs parser request) ih

theorem processUtterance_snd (parser : Parser) (text : String) (micros : Nat)
    (journal : Log.Journal) :
    ((processUtterance parser text micros).run journal).1.2 = parser ∨
      ∃ tokens, ((processUtterance parser text micros).run journal).1.2 =
        (parser.heard tokens).2 := by
  rw [processUtterance, bind_fst, bind_fst]
  generalize ((tokenizeUtterance text parser.entry).run _).2 = tokenized
  cases ((tokenizeUtterance text parser.entry).run _).1 with
  | error error => exact .inl rfl
  | ok stream =>
      right
      refine ⟨stream.tokens, ?_⟩
      dsimp only
      rw [bind_fst, ← parse_fst parser stream.tokens tokenized]
      obtain ⟨⟨outcome, after⟩, journal⟩ := (parser.parse stream.tokens).run tokenized
      cases outcome <;> rfl

theorem serve_ambiguous (parser : Parser) (request : Request) (journal : Log.Journal) :
    ((parser.serve request).run journal).1.stats.ambiguous = parser.stats.ambiguous := by
  cases request with
  | utterance tokens =>
      have hrun : ((parser.serve (.utterance tokens)).run journal).1 =
          ((parser.parse tokens).run journal).1.2 := rfl
      rw [hrun, parse_fst, heard_ambiguous]
  | fragment rule tokens =>
      have hrun : ((parser.serve (.fragment rule tokens)).run journal).1 =
          ((parser.parseFragment rule tokens).run journal).1.2 := rfl
      rw [hrun, parseFragment_fst]
      rfl
  | text text micros =>
      have hrun : ((parser.serve (.text text micros)).run journal).1 =
          ((processUtterance parser text micros).run journal).1.2 := rfl
      rw [hrun]
      -- The tokenizer refuses the text, or its tokens are heard.
      rcases processUtterance_snd parser text micros journal with h | ⟨tokens, h⟩
      · rw [h]
      · rw [h, heard_ambiguous]
  | statistics => rfl

theorem serveAll_ambiguous (parser : Parser) (requests : List Request) (journal : Log.Journal) :
    ((parser.serveAll requests).run journal).1.stats.ambiguous = parser.stats.ambiguous := by
  induction requests generalizing parser journal with
  | nil => rfl
  | cons request rest ih =>
      rw [serveAll, List.foldlM_cons, bind_fst, ← serveAll, ih, serve_ambiguous]

end Parser

/-- The command grammar is unambiguous: labels have at most one derivation from
a nonterminal, the derivation of a chart leaves no ties, and no run of requests
counts an ambiguous utterance or delivers the warning about one. -/
theorem commands_unambiguous :
    (∀ (rule : Rule) (labels : List String) (tree other : Derivation),
      tree.Covers Commands.grammar labels (.rule rule) 0 labels.length →
      other.Covers Commands.grammar labels (.rule rule) 0 labels.length → tree = other) ∧
    (∀ (start : Rule) (tokens : List Token) (chart : Chart) (tree : Derivation) (ties : Nat),
      Chart.build Commands.grammar start tokens = .ok chart →
      chart.derive = .ok (tree, ties) → ties = 0) ∧
    (∀ (parser : Parser) (requests : List Request) (journal : Log.Journal),
      let after := (parser.serveAll requests).run journal
      after.1.stats.ambiguous = parser.stats.ambiguous ∧
        Log.Delivers (· ≠ .ambiguousDerivation) journal after.2) := by
  refine ⟨?_, ?_, ?_⟩
  · intro rule labels tree other htree hother
    exact Derivation.covers_unique Commands.fits (Nat.le_refl _) htree hother
  · intro start tokens chart tree ties hbuild hderive
    exact Chart.derive_ties Commands.fits hbuild hderive
  · -- What is logged on the way is of known codes, and the warning's is none of them.
    intro parser requests journal
    refine ⟨Parser.serveAll_ambiguous parser requests journal, ?_⟩
    refine (Parser.serveAll_logs parser requests journal).mono fun code hcode hambiguous => ?_
    have hnot : Log.Code.ambiguousDerivation ∉ servedCodes := by decide
    exact hnot (hambiguous ▸ hcode)

/-- A step that is taken twice is read in one way, without a choice. -/
theorem counted_step_read_one_way :
    let tokens := [Token.ofWord "up" 0, .ofWord "two" 1]
    ∃ chart tree, Chart.build Commands.grammar .movement tokens = .ok chart ∧
      chart.derive = .ok (tree, 0) ∧
      tree.Covers Commands.grammar (tokens.map Token.kind) (.rule .movement) 0 2 ∧
      ∀ other : Derivation,
        other.Covers Commands.grammar (tokens.map Token.kind) (.rule .movement) 0 2 →
          other = tree := by
  intro tokens
  have hbuilt : (Chart.build Commands.grammar .movement tokens).isOk = true := by
    decide +kernel
  obtain ⟨chart, hbuild⟩ := eq_ok_of_isOk hbuilt
  obtain ⟨tree, ties, hderive, hcovers⟩ := Commands.derive_eq_ok (by decide) hbuild
  obtain ⟨hunique, hties, -⟩ := commands_unambiguous
  obtain rfl := hties .movement tokens chart tree ties hbuild hderive
  exact ⟨chart, tree, hbuild, hderive, hcovers, fun other hother =>
    hunique .movement (tokens.map Token.kind) other tree hother hcovers⟩

end SpokenKeys
