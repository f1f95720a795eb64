import SpokenKeys.Proofs.Acceptance

/-!
What an accepted utterance says. Its first label after any filler words tells
whether it is nothing, a phrase that turns the session, or a chain of commands,
and evaluating its derivation does just that.
-/

namespace SpokenKeys

open SpokenKeys.Derivation Evaluation Commands

/-- The labels that are left when an entry point has dropped filler words. -/
def Entry.core : Entry → List String → List String
  | .strict, labels => labels
  | .tolerant, labels => labels.dropWhile Lexicon.isJunk

/-- What an accepted utterance comes to. -/
inductive Verdict where
  | silence
  /-- The session turns to a state, whatever it was in. -/
  | turn (session : Session)
  /-- A chain of commands, which a sleeping session ignores. -/
  | chain (first : Action) (rest : List Action)

namespace Verdict

/-- The action that an utterance comes to in a session. -/
def action : Verdict → Session → Action
  | .silence, _ => .idle
  | .turn _, _ => .idle
  | .chain first rest, session => if session.isSleeping then .idle else .chain (first :: rest)

/-- The session after the utterance. -/
def after : Verdict → Session → Session
  | .turn target, _ => target
  | _, session => session

/-- The labels that have the verdict, filler words apart. -/
def Fits (core : List String) : Verdict → Prop
  | .silence => core = [Token.endLabel]
  | .turn .asleep => core = Lexicon.goToSleep ++ [Token.endLabel]
  | .turn .awake => core = Lexicon.startListening ++ [Token.endLabel]
  | .chain _ _ => ∃ label ∈ commandFirst, core.head? = some label

end Verdict

/-- The verdict is what evaluating a derivation does. -/
def Verdict.Decides (verdict : Verdict) (tokens : List Token) (tree : Derivation) : Prop :=
  Runs (evaluate grammar tokens.toArray tree) fun session =>
    (.node (verdict.action session), verdict.after session)

namespace Commands

theorem productions_input : productions.filter (fun production => production.lhs == .input) =
    alternatives .input .input [[close], [n .sleepPhrase, close], [n .commands, close]] :=
  rfl

theorem productions_tolerantInput :
    productions.filter (fun production => production.lhs == .tolerantInput) =
      alternatives .tolerantInput .tolerantInput
        [[close], [n .junk, n .sleepPhrase, close], [n .junk, n .commands, close]] :=
  rfl

theorem productions_sleepPhrase :
    productions.filter (fun production => production.lhs == .sleepPhrase) =
      alternatives .sleepPhrase .sleepPhrase
        [Lexicon.goToSleep.map t, Lexicon.startListening.map t] :=
  rfl

/-- The productions of a nonterminal are the listed ones. -/
theorem mem_iff_side {rule : Rule} {meaning : Meaning} {sides : List (List Symbol)}
    (h : productions.filter (fun production => production.lhs == rule) =
      alternatives rule meaning sides) {production : Production} :
    production ∈ productions ∧ production.lhs = rule ↔
      ∃ side ∈ sides, production = ⟨rule, side, meaning⟩ := by
  rw [← mem_alternatives, ← h, List.mem_filter, beq_iff_eq]

theorem exists_side {rule : Rule} {meaning : Meaning} {sides : List (List Symbol)}
    (h : productions.filter (fun production => production.lhs == rule) =
      alternatives rule meaning sides) {id : Nat} {production : Production}
    (hproduction : grammar.production? id = some production) (hlhs : production.lhs = rule) :
    ∃ side ∈ sides, production = ⟨rule, side, meaning⟩ :=
  (mem_iff_side h).mp ⟨mem_of_production? hproduction, hlhs⟩

/-- Whether the symbol stands for filler words only. -/
def isFiller : Symbol → Bool
  | .terminal word => Lexicon.isJunk word
  | .rule rule => rule == .junk

theorem isJunk_of_derives {labels : List String}
    (h : Derives grammar.table [.rule .junk] labels) :
    ∀ label ∈ labels, Lexicon.isJunk label = true := by
  have hsides : (productions.all fun production => production.lhs != .junk ||
      production.rhs.all isFiller) = true := by
    decide
  have hclosed : ∀ production ∈ grammar.table, isFiller (.rule production.lhs) = true →
      production.rhs.all isFiller = true := by
    intro production hmem hlhs
    have hside := forall_table hsides production hmem
    rwa [beq_iff_eq.mp hlhs] at hside
  exact h.forall_of_closed hclosed rfl

end Commands

variable {tokens : List Token} {start stop : Nat} {tree : Derivation} {trees : List Derivation}

theorem gate_eq (session : Session) (action : Action) : ∃ events, Meaning.gate session action =
    ⟨.node (if session.isSleeping then .idle else action), session, events⟩ := by
  rw [Meaning.gate]
  split
  · exact ⟨_, rfl⟩
  · exact ⟨_, rfl⟩

/-- The values of terminals are tokens of their labels. -/
theorem exists_tokens {words : List String} {values : List Value}
    (h : List.Forall₂ Matches (words.map t) values) :
    ∃ spoken : List Token, values = spoken.map .token ∧ spoken.map Token.kind = words := by
  induction words generalizing values with
  | nil =>
      rw [List.map_nil, List.forall₂_nil_left_iff] at h
      exact ⟨[], h, rfl⟩
  | cons word rest ih =>
      rw [List.map_cons, List.forall₂_cons_left_iff] at h
      obtain ⟨_, _, ⟨token, rfl, hkind⟩, hrest, rfl⟩ := h
      obtain ⟨spoken, rfl, hspoken⟩ := ih hrest
      refine ⟨token :: spoken, rfl, ?_⟩
      rw [List.map_cons, hkind, hspoken]

theorem tokenArguments_map (production : String) (spoken : List Token) :
    tokenArguments production (spoken.map .token) = .ok spoken := by
  induction spoken with
  | nil => rfl
  | cons token rest ih =>
      rw [List.map_cons, tokenArguments, ih]
      rfl

/-- The last word of a phrase tells how the session turns. -/
theorem applySleepPhrase_eq {words : List String} {values : List Value} {last : String}
    (hvalues : List.Forall₂ Matches (words.map t) values) (hlast : words.getLast? = some last) :
    ∃ events, Meaning.applySleepPhrase values =
      .ok ⟨.node .idle, if last == "sleep" then .asleep else .awake, events⟩ := by
  obtain ⟨spoken, rfl, rfl⟩ := exists_tokens hvalues
  rw [List.getLast?_map, Option.map_eq_some_iff] at hlast
  obtain ⟨token, htoken, rfl⟩ := hlast
  rw [Meaning.applySleepPhrase, tokenArguments_map]
  simp only [bind, Except.bind, htoken]
  split
  · exact ⟨_, rfl⟩
  · exact ⟨_, rfl⟩

/-- A phrase that turns the session does so whatever state it is in. -/
theorem turn_of_covers
    (h : Covers grammar (tokens.map Token.kind) tree (.rule .sleepPhrase) start stop) :
    ∃ target, Verdict.Fits (span (tokens.map Token.kind) start stop ++ [Token.endLabel])
        (.turn target) ∧
      Runs (evaluate grammar tokens.toArray tree) fun _ => (.node .idle, target) := by
  cases tree with
  | leaf => exact h.elim
  | node id first last children =>
      obtain ⟨-, -, production, hproduction, hlhs, hchildren⟩ := h
      obtain ⟨side, hside, rfl⟩ := exists_side productions_sleepPhrase hproduction hlhs
      have hderives := derives_of_coverAll hchildren
      have hturns : ∀ (words : List String) (target : Session), side = words.map t →
          (words.getLast?.map fun last => if last == "sleep" then Session.asleep else .awake) =
            some target →
          span (tokens.map Token.kind) start stop = words ∧
            Runs (evaluate grammar tokens.toArray (.node id first last children))
              fun _ => (.node .idle, target) := by
        intro words target hside htarget
        subst hside
        obtain ⟨word, hword, htarget⟩ := Option.map_eq_some_iff.mp htarget
        have hplain : (words.map t).all Symbol.isPlain = true := by
          simp [t, Symbol.isPlain]
        obtain ⟨values, hvalues, hruns⟩ := runs_of_coverAll hplain hchildren
        refine ⟨Derives.terminals_iff.mp hderives, ?_⟩
        rw [evaluate]
        have hreduce : Runs (reduce grammar id first last values) fun _ => (.node .idle, target) :=
          Runs.reduce hproduction first last fun session =>
            htarget ▸ applySleepPhrase_eq hvalues hword
        exact hruns.bind _ fun _ => hreduce
      simp only [List.mem_cons, List.not_mem_nil, or_false] at hside
      rcases hside with hside | hside
      · obtain ⟨hwords, hruns⟩ := hturns Lexicon.goToSleep .asleep hside (by decide)
        exact ⟨.asleep, congrArg (· ++ [Token.endLabel]) hwords, hruns⟩
      · obtain ⟨hwords, hruns⟩ := hturns Lexicon.startListening .awake hside (by decide)
        exact ⟨.awake, congrArg (· ++ [Token.endLabel]) hwords, hruns⟩

theorem close_of_covers (h : Covers grammar (tokens.map Token.kind) tree close start stop) :
    span (tokens.map Token.kind) start stop = [Token.endLabel] ∧ ∃ token : Token,
      token.isEnd = true ∧
        Runs (evaluate grammar tokens.toArray tree) fun session => (.token token, session) := by
  refine ⟨Derives.single_terminal_iff.mp (derives_of_covers h), ?_⟩
  obtain ⟨_, ⟨token, rfl, hkind⟩, hruns⟩ := runs_of_covers rfl h
  exact ⟨token, beq_iff_eq.mpr hkind, hruns⟩

theorem head_of_commands {labels : List String}
    (h : Derives grammar.table [.rule .commands] labels) :
    ∃ label ∈ commandFirst, labels.head? = some label := by
  cases labels with
  | nil => exact absurd (fits.shortestOf_le h) (by decide)
  | cons label rest => exact ⟨label, fits.mem_firstOf h, rfl⟩

theorem silence_of_coverAll
    (h : CoverAll grammar (tokens.map Token.kind) trees [close] start stop) :
    Verdict.silence.Fits (span (tokens.map Token.kind) start stop) ∧ ∃ token : Token,
      token.isEnd = true ∧
        Runs (evaluateList grammar tokens.toArray trees) fun session =>
          ([.token token], session) := by
  match trees, h with
  | [tree], ⟨middle, hclose, hnil⟩ =>
    obtain rfl : middle = stop := hnil
    obtain ⟨hlabels, token, hend, hruns⟩ := close_of_covers hclose
    exact ⟨hlabels, token, hend, hruns.cons (Runs.nil _ _)⟩

/-- A phrase that turns the session, or commands, with the closing marker have a
verdict: in any session the action among their values comes to that. -/
theorem verdict_of_coverAll {rule : Rule} (hrule : rule = .sleepPhrase ∨ rule = .commands)
    (h : CoverAll grammar (tokens.map Token.kind) trees [n rule, close] start stop) :
    ∃ (verdict : Verdict) (action : Action) (rest : List Value),
      verdict.Fits (span (tokens.map Token.kind) start stop) ∧
      (Runs (evaluateList grammar tokens.toArray trees) fun session =>
        (.node action :: rest, verdict.after session)) ∧
      ∀ session, ∃ events, Meaning.gate session action =
        ⟨.node (verdict.action session), session, events⟩ := by
  match trees, h with
  | [first, last], ⟨middle, hfirst, stop', hclose, hnil⟩ =>
    obtain rfl : stop' = stop := hnil
    obtain ⟨hlabels, token, -, hlast⟩ := close_of_covers hclose
    rw [← span_append _ (le_of_covers hfirst) (le_of_covers hclose), hlabels]
    rcases hrule with rfl | rfl
    · obtain ⟨target, hfits, hruns⟩ := turn_of_covers hfirst
      refine ⟨.turn target, .idle, [.token token], hfits, hruns.cons (hlast.cons (Runs.nil _ _)),
        fun session => ?_⟩
      obtain ⟨events, hevents⟩ := gate_eq session .idle
      rw [ite_self] at hevents
      exact ⟨events, hevents⟩
    · obtain ⟨_, ⟨action, rest, rfl⟩, hruns⟩ := runs_of_covers rfl hfirst
      refine ⟨.chain action rest, .chain (action :: rest), [.token token], ?_,
        hruns.cons (hlast.cons (Runs.nil _ _)), fun session => gate_eq session _⟩
      obtain ⟨label, hlabel, hhead⟩ := head_of_commands (derives_of_covers hfirst)
      refine ⟨label, hlabel, ?_⟩
      rw [List.head?_append, hhead]
      rfl

/-- Nothing that has a verdict begins with a filler word. -/
theorem Verdict.Fits.dropWhile_eq {verdict : Verdict} {core : List String}
    (h : verdict.Fits core) : core.dropWhile Lexicon.isJunk = core := by
  have hcommands : (commandFirst.all fun label => !Lexicon.isJunk label) = true := by
    decide
  cases verdict with
  | silence =>
      rw [show core = _ from h]
      decide
  | turn session =>
      cases session with
      | asleep =>
          rw [show core = _ from h]
          decide
      | awake =>
          rw [show core = _ from h]
          decide
  | chain first rest =>
      obtain ⟨label, hlabel, hhead⟩ := h
      obtain ⟨tail, rfl⟩ := List.head?_eq_some_iff.mp hhead
      have hnot := List.all_eq_true.mp hcommands label hlabel
      rw [Bool.not_eq_true'] at hnot
      rw [List.dropWhile_cons, hnot]
      rfl

/-- An entry production whose meaning acts on the values as on those of what is
said without filler words. -/
theorem decides_of_apply {verdict : Verdict} {id : Nat} {production : Production}
    {children : List Derivation} {values : List Value}
    (hproduction : grammar.production? id = some production)
    (hruns : Runs (evaluateList grammar tokens.toArray children) fun session =>
      (values, verdict.after session))
    (happly : ∀ session, ∃ events, production.meaning.apply session values =
      .ok ⟨.node (verdict.action session), session, events⟩) :
    verdict.Decides tokens (.node id start stop children) := by
  have hreduce : Runs (reduce grammar id start stop values) fun session =>
      (.node (verdict.action session), session) :=
    Runs.reduce hproduction start stop happly
  have haction : ∀ session, verdict.action (verdict.after session) = verdict.action session := by
    intro session
    cases verdict <;> rfl
  have hbind := hruns.bind _ fun _ => hreduce
  simp only [haction] at hbind
  rw [Verdict.Decides, evaluate]
  exact hbind

/-- Evaluating the derivation of an utterance has a verdict, which fits what is
said after any filler words. -/
theorem verdict_of_covers (entry : Entry)
    (h : Covers grammar (tokens.map Token.kind) tree (.rule entry.rule) 0 tokens.length) :
    ∃ verdict : Verdict, verdict.Fits (entry.core (tokens.map Token.kind)) ∧
      verdict.Decides tokens tree := by
  have hwhole : span (tokens.map Token.kind) 0 tokens.length = tokens.map Token.kind := by
    rw [span_zero, List.take_of_length_le (by simp)]
  cases tree with
  | leaf => exact h.elim
  | node id first last children =>
      obtain ⟨-, -, production, hproduction, hlhs, hchildren⟩ := h
      cases entry with
      | strict =>
          obtain ⟨side, hside, rfl⟩ := exists_side productions_input hproduction hlhs
          have hcore : ∀ rule, rule = .sleepPhrase ∨ rule = .commands → side = [n rule, close] →
              ∃ verdict : Verdict, verdict.Fits (Entry.strict.core (tokens.map Token.kind)) ∧
                verdict.Decides tokens (.node id first last children) := by
            rintro rule hrule rfl
            obtain ⟨verdict, action, rest, hfits, hruns, hgate⟩ :=
              verdict_of_coverAll hrule hchildren
            rw [hwhole] at hfits
            exact ⟨verdict, hfits, decides_of_apply hproduction hruns fun session =>
              (hgate session).imp fun _ => congrArg Except.ok⟩
          simp only [List.mem_cons, List.not_mem_nil, or_false] at hside
          rcases hside with rfl | hside | hside
          · obtain ⟨hfits, token, hend, hruns⟩ := silence_of_coverAll hchildren
            rw [hwhole] at hfits
            exact ⟨.silence, hfits, decides_of_apply hproduction hruns fun session =>
              ⟨[], if_pos hend⟩⟩
          · exact hcore .sleepPhrase (.inl rfl) hside
          · exact hcore .commands (.inr rfl) hside
      | tolerant =>
          obtain ⟨side, hside, rfl⟩ := exists_side productions_tolerantInput hproduction hlhs
          have hcore : ∀ rule, rule = .sleepPhrase ∨ rule = .commands →
              side = [n .junk, n rule, close] →
              ∃ verdict : Verdict, verdict.Fits (Entry.tolerant.core (tokens.map Token.kind)) ∧
                verdict.Decides tokens (.node id first last children) := by
            rintro rule hrule rfl
            match children, hchildren with
            | filler :: trees, ⟨middle, hfiller, hrest⟩ =>
              have hlabels := isJunk_of_derives (derives_of_covers hfiller)
              obtain ⟨_, rfl, hfillerRuns⟩ := runs_of_covers rfl hfiller
              obtain ⟨verdict, action, rest, hfits, hruns, hgate⟩ :=
                verdict_of_coverAll hrule hrest
              refine ⟨verdict, ?_, decides_of_apply hproduction (hfillerRuns.cons hruns)
                fun session => (hgate session).imp fun _ => congrArg Except.ok⟩
              -- The filler words are dropped, and what is left begins with none.
              rw [Entry.core, ← hwhole, ← span_append _ (le_of_covers hfiller)
                (le_of_coverAll hrest), List.dropWhile_append_of_pos hlabels, hfits.dropWhile_eq]
              exact hfits
          simp only [List.mem_cons, List.not_mem_nil, or_false] at hside
          rcases hside with rfl | hside | hside
          · obtain ⟨hfits, token, hend, hruns⟩ := silence_of_coverAll hchildren
            rw [hwhole] at hfits
            refine ⟨.silence, ?_, decides_of_apply hproduction hruns fun session =>
              ⟨[], if_pos hend⟩⟩
            rw [Entry.core, hfits.dropWhile_eq]
            exact hfits
          · exact hcore .sleepPhrase (.inl rfl) hside
          · exact hcore .commands (.inr rfl) hside

end SpokenKeys
