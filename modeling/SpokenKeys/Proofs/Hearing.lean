import SpokenKeys.Proofs.Phrases
import SpokenKeys.Proofs.Rejection

/-!
What a parser hears. The tokens of an utterance tell its verdict: silence, a
phrase that turns the session, or commands, the last two with filler words before
them where the entry point drops these. A parser accepts exactly the utterances
that have a verdict, and does what the verdict says.
-/

namespace SpokenKeys

open SpokenKeys.Derivation Evaluation Commands

/-- The words that turn the session to a state. -/
def Session.phrase : Session → List String
  | .asleep => Lexicon.goToSleep
  | .awake => Lexicon.startListening

theorem Commands.derives_iff {rule : Rule} {labels : List String} (meaning : Meaning)
    (sides : List (List Symbol))
    (h : productions.filter (fun production => production.lhs == rule) =
      alternatives rule meaning sides) :
    Derives grammar.table [.rule rule] labels ↔
      ∃ side ∈ sides, Derives grammar.table side labels := by
  rw [Derives.single_iff]
  constructor
  · rintro ⟨production, hmem, hlhs, hderives⟩
    rw [table_eq] at hmem
    obtain ⟨side, hside, rfl⟩ := (mem_iff_side h).mp ⟨hmem, hlhs⟩
    exact ⟨side, hside, hderives⟩
  · rintro ⟨side, hside, hderives⟩
    obtain ⟨hmem, hlhs⟩ := (mem_iff_side h).mpr ⟨side, hside, rfl⟩
    rw [← table_eq] at hmem
    exact ⟨_, hmem, hlhs, hderives⟩

theorem Commands.derives_sleepPhrase {labels : List String} :
    Derives grammar.table [.rule .sleepPhrase] labels ↔
      ∃ target : Session, labels = target.phrase := by
  rw [derives_iff .sleepPhrase _ productions_sleepPhrase]
  constructor
  · rintro ⟨side, hside, hderives⟩
    simp only [List.mem_cons, List.not_mem_nil, or_false] at hside
    rcases hside with rfl | rfl
    · exact ⟨.asleep, Derives.terminals_iff.mp hderives⟩
    · exact ⟨.awake, Derives.terminals_iff.mp hderives⟩
  · rintro ⟨target, rfl⟩
    cases target with
    | asleep => exact ⟨_, List.mem_cons_self, Derives.terminals_iff.mpr rfl⟩
    | awake =>
        exact ⟨_, List.mem_cons_of_mem _ List.mem_cons_self, Derives.terminals_iff.mpr rfl⟩

/-- Filler is any run of filler words. -/
theorem Commands.derives_junk {labels : List String} :
    Derives grammar.table [.rule .junk] labels ↔
      ∀ label ∈ labels, Lexicon.isJunk label = true := by
  have hsides : productions.filter (fun production => production.lhs == .junk) =
      alternatives .junk .junk ([] :: Lexicon.junkWords.map fun word => [t word, n .junk]) := rfl
  constructor
  · exact isJunk_of_derives
  · intro h
    rw [derives_iff .junk _ hsides]
    induction labels with
    | nil => exact ⟨[], List.mem_cons_self, .nil⟩
    | cons label rest ih =>
        obtain ⟨hlabel, hrest⟩ := List.forall_mem_cons.mp h
        have hmem : label ∈ Lexicon.junkWords := List.contains_iff_mem.mp hlabel
        exact ⟨[t label, n .junk], List.mem_cons_of_mem _ (List.mem_map_of_mem hmem),
          .terminal ((derives_iff .junk _ hsides).mpr (ih hrest))⟩

namespace Entry

variable {entry : Entry} {labels : List String} {tokens : List Token} {verdict : Verdict}

def filler : Entry → List Symbol
  | .strict => []
  | .tolerant => [n .junk]

def fillerValues : Entry → List Value
  | .strict => []
  | .tolerant => [.absent]

def meaning : Entry → Meaning
  | .strict => .input
  | .tolerant => .tolerantInput

/-- What may stand between filler words and the closing marker. -/
def bodies : List Rule := [.sleepPhrase, .commands]

theorem productions_entry (entry : Entry) :
    productions.filter (fun production => production.lhs == entry.rule) =
      alternatives entry.rule entry.meaning
        ([close] :: bodies.map fun body => entry.filler ++ [n body, close]) := by
  cases entry with
  | strict => exact productions_input
  | tolerant => exact productions_tolerantInput

theorem derives_no_filler (entry : Entry) : Derives grammar.table entry.filler [] := by
  cases entry with
  | strict => exact .nil
  | tolerant => exact derives_junk.mpr (by simp)

theorem yields_filler (h : Derives grammar.table entry.filler (tokens.map Token.kind)) :
    Yields grammar.table entry.filler tokens entry.fillerValues := by
  have hplain : entry.filler.all Symbol.isPlain = true := by cases entry <;> rfl
  obtain ⟨values, hvalues⟩ := exists_yields h hplain rfl
  cases entry with
  | strict =>
      obtain ⟨rfl, rfl⟩ := Yields.nil_iff.mp hvalues
      exact hvalues
  | tolerant =>
      obtain ⟨value, rfl, hvalue⟩ := Yields.last_iff.mp hvalues
      obtain rfl : value = .absent := shaped_of_yields hvalue
      exact hvalue

/-- What an entry point generates is silence, or a body after filler words. -/
theorem generates_iff : grammar.Generates entry.rule labels ↔
    labels = [Token.endLabel] ∨ ∃ front core, ∃ body ∈ bodies, labels = front ++ core ∧
      Derives grammar.table entry.filler front ∧ Derives grammar.table [n body, close] core := by
  rw [Grammar.Generates, derives_iff entry.meaning _ entry.productions_entry]
  constructor
  · rintro ⟨side, hside, hderives⟩
    rcases List.mem_cons.mp hside with rfl | hside
    · exact .inl (Derives.single_terminal_iff.mp hderives)
    · obtain ⟨body, hbody, rfl⟩ := List.mem_map.mp hside
      obtain ⟨front, core, rfl, hfront, hcore⟩ := Derives.append_iff.mp hderives
      exact .inr ⟨front, core, body, hbody, rfl, hfront, hcore⟩
  · rintro (rfl | ⟨front, core, body, hbody, rfl, hfront, hcore⟩)
    · exact ⟨[close], List.mem_cons_self, .terminal .nil⟩
    · exact ⟨_, List.mem_cons_of_mem _ (List.mem_map_of_mem hbody), hfront.append hcore⟩

/-- The tokens have the verdict at the entry point. -/
inductive Hears (entry : Entry) : List Token → Verdict → Prop where
  | silence {closing : Token} : closing.kind = Token.endLabel → Hears entry [closing] .silence
  | turn {front phrase : List Token} {closing : Token} {target : Session} :
      Derives grammar.table entry.filler (front.map Token.kind) →
      phrase.map Token.kind = target.phrase → closing.kind = Token.endLabel →
      Hears entry (front ++ (phrase ++ [closing])) (.turn target)
  | chain {front body : List Token} {closing : Token} {first : Action} {rest : List Action} :
      Derives grammar.table entry.filler (front.map Token.kind) →
      Says .commands body (.node (.chain (first :: rest))) → closing.kind = Token.endLabel →
      Hears entry (front ++ (body ++ [closing])) (.chain first rest)

theorem Hears.generates (h : entry.Hears tokens verdict) :
    grammar.Generates entry.rule (tokens.map Token.kind) := by
  have hclose {body : Rule} {tokens : List Token} {closing : Token}
      (hbody : Derives grammar.table [.rule body] (tokens.map Token.kind))
      (hclosing : closing.kind = Token.endLabel) :
      Derives grammar.table [n body, close] ((tokens ++ [closing]).map Token.kind) := by
    rw [List.map_append, List.map_singleton, hclosing]
    exact hbody.append (.terminal .nil)
  cases h with
  | silence hclosing => exact generates_iff.mpr (.inl (by rw [List.map_singleton, hclosing]))
  | turn hfront hphrase hclosing =>
      exact generates_iff.mpr (.inr ⟨_, _, .sleepPhrase, by decide, List.map_append, hfront,
        hclose (derives_sleepPhrase.mpr ⟨_, hphrase⟩) hclosing⟩)
  | chain hfront hbody hclosing =>
      exact generates_iff.mpr (.inr ⟨_, _, .commands, by decide, List.map_append, hfront,
        hclose hbody.derives hclosing⟩)

theorem Hears.eq_closing (h : entry.Hears tokens .silence) :
    ∃ closing, tokens = [closing] ∧ closing.kind = Token.endLabel := by
  cases h with
  | silence hclosing => exact ⟨_, rfl, hclosing⟩

/-- What an entry point generates has a verdict. -/
theorem exists_hears (h : grammar.Generates entry.rule (tokens.map Token.kind)) :
    ∃ verdict, entry.Hears tokens verdict := by
  rcases generates_iff.mp h with hsilent | ⟨front, core, body, hbody, hlabels, hfront, hcore⟩
  · obtain ⟨closing, rfl, hclosing⟩ := List.map_eq_singleton_iff.mp hsilent
    exact ⟨.silence, .silence hclosing⟩
  · obtain ⟨words, back, rfl, hwords, hclose⟩ := Derives.cons_iff.mp hcore
    obtain ⟨filler, rest, rfl, rfl, hrest⟩ := List.map_eq_append_iff.mp hlabels
    obtain ⟨inner, last, rfl, rfl, hlast⟩ := List.map_eq_append_iff.mp hrest
    rw [Derives.single_terminal_iff.mp hclose] at hlast
    obtain ⟨closing, rfl, hclosing⟩ := List.map_eq_singleton_iff.mp hlast
    simp only [bodies, List.mem_cons, List.not_mem_nil, or_false] at hbody
    rcases hbody with rfl | rfl
    · obtain ⟨target, htarget⟩ := derives_sleepPhrase.mp hwords
      exact ⟨.turn target, .turn hfront htarget hclosing⟩
    · obtain ⟨values, hvalues⟩ := exists_yields hwords rfl rfl
      obtain ⟨value, rfl, hphrase⟩ := Yields.last_iff.mp hvalues
      obtain ⟨first, rest, rfl⟩ := shaped_of_yields hphrase
      exact ⟨.chain first rest, .chain hfront hphrase hclosing⟩

/-- Filler words are dropped before anything that has a verdict. -/
theorem core_append {front back : List String}
    (hfront : Derives grammar.table entry.filler front) (hback : verdict.Fits back) :
    entry.core (front ++ back) = back := by
  cases entry with
  | strict =>
      rw [Derives.nil_iff.mp hfront]
      rfl
  | tolerant =>
      rw [core, List.dropWhile_append_of_pos (isJunk_of_derives hfront), hback.dropWhile_eq]

theorem Hears.fits (h : entry.Hears tokens verdict) :
    verdict.Fits (entry.core (tokens.map Token.kind)) := by
  cases h with
  | @silence closing hclosing =>
      have hfits : Verdict.silence.Fits [Token.endLabel] := rfl
      have hcore := core_append entry.derives_no_filler hfits
      rw [List.map_singleton, hclosing]
      exact hcore.symm ▸ hfits
  | @turn front phrase closing target hfront hphrase hclosing =>
      have hfits : (Verdict.turn target).Fits ((phrase ++ [closing]).map Token.kind) := by
        rw [List.map_append, List.map_singleton, hclosing, hphrase]
        cases target <;> rfl
      rw [List.map_append, core_append hfront hfits]
      exact hfits
  | @chain front body closing first rest hfront hbody hclosing =>
      have hfits : (Verdict.chain first rest).Fits ((body ++ [closing]).map Token.kind) := by
        obtain ⟨label, hlabel, hhead⟩ := head_of_commands hbody.derives
        refine ⟨label, hlabel, ?_⟩
        rw [List.map_append, List.head?_append, hhead]
        rfl
      rw [List.map_append, core_append hfront hfits]
      exact hfits

end Entry

/-- Labels with the verdict of silence, or of a turn of the session, have no other
one. -/
theorem Verdict.Fits.unique {verdict other : Verdict} {core : List String} (h : verdict.Fits core)
    (hother : other.Fits core) (hidle : ∀ first rest, other ≠ .chain first rest) :
    verdict = other := by
  cases other with
  | turn target => exact h.eq_turn target hother
  | chain first rest => exact absurd rfl (hidle first rest)
  | silence =>
      cases verdict with
      | silence => rfl
      | turn target => exact (hother.eq_turn target h).symm
      | chain first rest =>
          obtain ⟨label, hlabel, hhead⟩ := h
          rw [show core = _ from hother] at hhead
          cases hhead
          exact absurd hlabel (by decide)

namespace Parser

variable {parser : Parser} {front body tokens : List Token} {closing : Token} {first : Action}
  {rest : List Action} {verdict : Verdict} {outcome : ParseOutcome}

theorem heard_of_generates (hlength : tokens.length ≤ Limits.tokens)
    (h : grammar.Generates parser.entry.rule (tokens.map Token.kind)) :
    ∃ outcome, (parser.heard tokens).1 = .ok outcome := by
  obtain ⟨inner, hlabels, -⟩ := exists_closed (entry_rooted parser.entry) h
  have hclosed : (tokens.map Token.kind).getLast? = some Token.endLabel := by
    rw [hlabels, List.getLast?_concat]
  rcases parser.heard_closed hclosed hlength with ⟨-, haccepted⟩ | ⟨hnot, -⟩
  · exact haccepted
  · exact absurd h hnot

theorem generates_of_heard (h : (parser.heard tokens).1 = .ok outcome) :
    grammar.Generates parser.entry.rule (tokens.map Token.kind) ∧
      tokens.length ≤ Limits.tokens := by
  obtain ⟨parsed, hparsed⟩ :
      ∃ parsed, (interpretTokens parser.entry.rule tokens parser.session).1 = .ok parsed := by
    rcases parser.heard_cases tokens with ⟨parsed, after, _, hrun, -⟩ | ⟨error, -, -, hheard⟩
    · exact ⟨parsed, by rw [hrun]⟩
    · rw [hheard] at h
      cases h
  obtain ⟨-, hlength, hgenerates⟩ := generates_of_interpretTokens hparsed
  exact ⟨hgenerates, hlength⟩

/-- Commands after filler words come to a chain of them. -/
theorem heard_chain (hfront : Derives grammar.table parser.entry.filler (front.map Token.kind))
    (hbody : Says .commands body (.node (.chain (first :: rest))))
    (hclosing : closing.kind = Token.endLabel)
    (htokens : front ++ (body ++ [closing]) = tokens) (hlength : tokens.length ≤ Limits.tokens) :
    ∃ outcome, (parser.heard tokens).1 = .ok outcome ∧
      outcome.action = (Verdict.chain first rest).action parser.session ∧
      (parser.heard tokens).2.session = (Verdict.chain first rest).after parser.session := by
  have hclose : Yields grammar.table [close] [closing] [.token closing] :=
    Yields.terminal_iff.mpr ⟨closing, [], [], rfl, rfl, hclosing, .nil⟩
  have hyields := (Entry.yields_filler hfront).append (hbody.append hclose)
  rw [htokens] at hyields
  have hmem : (⟨parser.entry.rule, parser.entry.filler ++ [n .commands, close],
      parser.entry.meaning⟩ : Production) ∈ grammar.table := by
    rw [table_eq]
    exact ((mem_iff_side parser.entry.productions_entry).mpr
      ⟨_, by simp [Entry.bodies], rfl⟩).1
  obtain ⟨id, -, hproduction⟩ := Grammar.exists_alternative hmem
  have hwhole : tokens.drop 0 = tokens ++ [] := (List.append_nil _).symm
  obtain ⟨children, hchildren, hruns⟩ := hyields.exists_trees hwhole
  rw [Nat.zero_add] at hchildren
  have hdecides : (Verdict.chain first rest).Decides tokens
      (.node id 0 tokens.length children) := by
    apply decides_of_apply hproduction hruns
    intro session
    obtain ⟨events, hgate⟩ := gate_eq session (.chain (first :: rest))
    refine ⟨events, ?_⟩
    cases parser.entry with
    | strict => exact congrArg Except.ok hgate
    | tolerant => exact congrArg Except.ok hgate
  have hnonempty : tokens ≠ [] := by simp [← htokens]
  have hcovers : Covers grammar (tokens.map Token.kind) (.node id 0 tokens.length children)
      (.rule parser.entry.rule) 0 tokens.length :=
    ⟨rfl, rfl, _, hproduction, rfl, hchildren⟩
  obtain ⟨chart, ties, hchosen⟩ := chosen_of_covers hnonempty hlength hcovers
  exact heard_of_decides hchosen hdecides

/-- What has a verdict is accepted, and the verdict is what it comes to. -/
theorem heard_of_hears (hlength : tokens.length ≤ Limits.tokens)
    (h : parser.entry.Hears tokens verdict) :
    ∃ outcome, (parser.heard tokens).1 = .ok outcome ∧
      outcome.action = verdict.action parser.session ∧
      (parser.heard tokens).2.session = verdict.after parser.session := by
  have hother (hidle : ∀ first rest, verdict ≠ .chain first rest) :
      ∃ outcome, (parser.heard tokens).1 = .ok outcome ∧
        outcome.action = verdict.action parser.session ∧
        (parser.heard tokens).2.session = verdict.after parser.session := by
    obtain ⟨outcome, haccepted⟩ := heard_of_generates hlength h.generates
    obtain ⟨other, hfits, hhears⟩ := exists_verdict_of_heard haccepted
    obtain rfl : other = verdict := hfits.unique h.fits hidle
    exact hhears parser rfl
  cases h with
  | silence => exact hother (by simp)
  | turn => exact hother (by simp)
  | chain hfront hbody hclosing => exact heard_chain hfront hbody hclosing rfl hlength

/-- An awake parser returns the commands that are said. -/
theorem heard_commands (hsession : parser.session = .awake)
    (hbody : Says .commands body (.node (.chain (first :: rest))))
    (hclosing : closing.kind = Token.endLabel)
    (hlength : (body ++ [closing]).length ≤ Limits.tokens) :
    ∃ outcome, (parser.heard (body ++ [closing])).1 = .ok outcome ∧
      outcome.action = .chain (first :: rest) := by
  have hfront : Derives grammar.table parser.entry.filler (([] : List Token).map Token.kind) :=
    parser.entry.derives_no_filler
  obtain ⟨outcome, houtcome, haction, -⟩ := heard_chain hfront hbody hclosing rfl hlength
  rw [hsession] at haction
  exact ⟨outcome, houtcome, haction⟩

/-- What is accepted has a verdict. -/
theorem exists_hears_of_heard (h : (parser.heard tokens).1 = .ok outcome) :
    ∃ verdict, parser.entry.Hears tokens verdict ∧ tokens.length ≤ Limits.tokens ∧
      outcome.action = verdict.action parser.session ∧
      (parser.heard tokens).2.session = verdict.after parser.session := by
  obtain ⟨hgenerates, hlength⟩ := generates_of_heard h
  obtain ⟨verdict, hhears⟩ := Entry.exists_hears hgenerates
  obtain ⟨other, hother, haction, hsession⟩ := heard_of_hears hlength hhears
  rw [h] at hother
  cases hother
  exact ⟨verdict, hhears, hlength, haction, hsession⟩

end Parser

end SpokenKeys
