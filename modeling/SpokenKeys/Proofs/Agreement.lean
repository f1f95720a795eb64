import SpokenKeys.Proofs.Rejection

/-!
The production table and the meanings agree. On values of the shapes of its
right-hand side the meaning of a production finds no fault, whatever the session,
and has a value of the shape of its left-hand side. So a derivation of any
nonterminal is evaluated to the end, and an utterance that has one is accepted.
-/

namespace SpokenKeys

open SpokenKeys.Derivation Evaluation Commands

/-- On values of the right shapes the production's meaning finds no fault, and
the value it has is of the right shape. -/
def Agrees (production : Production) : Prop :=
  ∀ (session : Session) (values : List Value), List.Forall₂ Matches production.rhs values →
    ∃ outcome, production.meaning.apply session values = .ok outcome ∧
      Shaped production.lhs outcome.value

variable {production : Production} {tokens : List Token}

theorem shaped_gate (rule : Rule) (hrule : ∀ action, Shaped rule (.node action))
    (session : Session) (action : Action) : Shaped rule (Meaning.gate session action).value := by
  obtain ⟨events, hgate⟩ := gate_eq session action
  rw [hgate]
  exact hrule _

theorem agrees_input
    (hmem : production ∈ alternatives .input .input
      [[close], [n .sleepPhrase, close], [n .commands, close]]) : Agrees production := by
  obtain ⟨side, hside, rfl⟩ := mem_alternatives.mp hmem
  intro session values hvalues
  have hshaped : ∀ action, Shaped .input (.node action) := fun action => ⟨action, rfl⟩
  simp only [List.mem_cons, List.not_mem_nil, or_false] at hside
  rcases hside with rfl | rfl | rfl <;>
    simp only [n, close, t, List.forall₂_cons_left_iff, List.forall₂_nil_left_iff] at hvalues
  · obtain ⟨_, _, ⟨token, rfl, hkind⟩, rfl, rfl⟩ := hvalues
    exact ⟨_, if_pos (beq_iff_eq.mpr hkind), hshaped _⟩
  · obtain ⟨_, _, ⟨action, rfl⟩, ⟨_, _, -, rfl, rfl⟩, rfl⟩ := hvalues
    exact ⟨_, rfl, shaped_gate .input hshaped session action⟩
  · obtain ⟨_, _, ⟨first, rest, rfl⟩, ⟨_, _, -, rfl, rfl⟩, rfl⟩ := hvalues
    exact ⟨_, rfl, shaped_gate .input hshaped session _⟩

theorem agrees_tolerantInput
    (hmem : production ∈ alternatives .tolerantInput .tolerantInput
      [[close], [n .junk, n .sleepPhrase, close], [n .junk, n .commands, close]]) :
    Agrees production := by
  obtain ⟨side, hside, rfl⟩ := mem_alternatives.mp hmem
  intro session values hvalues
  have hshaped : ∀ action, Shaped .tolerantInput (.node action) := fun action => ⟨action, rfl⟩
  simp only [List.mem_cons, List.not_mem_nil, or_false] at hside
  rcases hside with rfl | rfl | rfl <;>
    simp only [n, close, t, List.forall₂_cons_left_iff, List.forall₂_nil_left_iff] at hvalues
  · obtain ⟨_, _, ⟨token, rfl, hkind⟩, rfl, rfl⟩ := hvalues
    exact ⟨_, if_pos (beq_iff_eq.mpr hkind), hshaped _⟩
  · obtain ⟨_, _, rfl, ⟨_, _, ⟨action, rfl⟩, ⟨_, _, -, rfl, rfl⟩, rfl⟩, rfl⟩ := hvalues
    exact ⟨_, rfl, shaped_gate .tolerantInput hshaped session action⟩
  · obtain ⟨_, _, rfl, ⟨_, _, ⟨first, rest, rfl⟩, ⟨_, _, -, rfl, rfl⟩, rfl⟩, rfl⟩ := hvalues
    exact ⟨_, rfl, shaped_gate .tolerantInput hshaped session _⟩

theorem agrees_sleepPhrase
    (hmem : production ∈ alternatives .sleepPhrase .sleepPhrase
      [Lexicon.goToSleep.map t, Lexicon.startListening.map t]) : Agrees production := by
  obtain ⟨side, hside, rfl⟩ := mem_alternatives.mp hmem
  intro session values hvalues
  have hphrase : ∀ (words : List String) (last : String), words.getLast? = some last →
      List.Forall₂ Matches (words.map t) values →
      ∃ outcome, Meaning.sleepPhrase.apply session values = .ok outcome ∧
        Shaped .sleepPhrase outcome.value := by
    intro words last hlast hwords
    obtain ⟨events, happly⟩ := applySleepPhrase_eq hwords hlast
    exact ⟨_, happly, .idle, rfl⟩
  simp only [List.mem_cons, List.not_mem_nil, or_false] at hside
  rcases hside with rfl | rfl
  · exact hphrase Lexicon.goToSleep "sleep" rfl hvalues
  · exact hphrase Lexicon.startListening "listening" rfl hvalues

/-- Every production of the table agrees with its meaning. -/
theorem agrees_of_mem (hmem : production ∈ productions) : Agrees production := by
  cases hplain : production.lhs.turnsSession with
  | false =>
      intro session values hvalues
      obtain ⟨value, hshaped, happly⟩ := means_of_mem hmem hplain hvalues
      exact ⟨_, happly session, hshaped⟩
  | true =>
      -- Only three nonterminals have to do with the session.
      have hlhs : production.lhs = .input ∨ production.lhs = .tolerantInput ∨
          production.lhs = .sleepPhrase := by
        revert hplain
        cases production.lhs <;> simp [Rule.turnsSession]
      rcases hlhs with hlhs | hlhs | hlhs
      · apply agrees_input
        rw [← productions_input]
        exact List.mem_filter.mpr ⟨hmem, beq_iff_eq.mpr hlhs⟩
      · apply agrees_tolerantInput
        rw [← productions_tolerantInput]
        exact List.mem_filter.mpr ⟨hmem, beq_iff_eq.mpr hlhs⟩
      · apply agrees_sleepPhrase
        rw [← productions_sleepPhrase]
        exact List.mem_filter.mpr ⟨hmem, beq_iff_eq.mpr hlhs⟩

theorem exists_reduce_run {id : Nat} (hproduction : grammar.production? id = some production)
    (start stop : Nat) {values : List Value} (hvalues : List.Forall₂ Matches production.rhs values)
    (state : Evaluation) :
    ∃ value after, (reduce grammar id start stop values).run.run state = (.ok value, after) ∧
      Shaped production.lhs value := by
  obtain ⟨outcome, happly, hshaped⟩ :=
    agrees_of_mem (mem_of_production? hproduction) state.session values hvalues
  rw [reduce_run hproduction, happly]
  exact ⟨_, _, rfl, hshaped⟩

mutual

/-- A derivation is evaluated to the end, to a value of its symbol's shape. -/
theorem exists_evaluate_run : ∀ {tree : Derivation} {symbol : Symbol} {start stop : Nat},
    Covers grammar (tokens.map Token.kind) tree symbol start stop → ∀ state : Evaluation,
    ∃ value after, (evaluate grammar tokens.toArray tree).run.run state = (.ok value, after) ∧
      Matches symbol value
  | .leaf index, .terminal label, _, _, h, state => by
      obtain ⟨rfl, -, hlabel⟩ := h
      rw [List.getElem?_map, Option.map_eq_some_iff] at hlabel
      obtain ⟨token, htoken, hkind⟩ := hlabel
      refine ⟨.token token, state, ?_, token, rfl, hkind⟩
      rw [evaluate, List.getElem?_toArray, htoken]
      rfl
  | .node id start stop children, .rule rule, _, _, h, state => by
      obtain ⟨-, -, production, hproduction, rfl, hchildren⟩ := h
      obtain ⟨values, middle, hmiddle, hvalues⟩ := exists_evaluateList_run hchildren state
      obtain ⟨value, after, hafter, hshaped⟩ :=
        exists_reduce_run hproduction start stop hvalues middle
      refine ⟨value, after, ?_, hshaped⟩
      rw [evaluate, Evaluating.run_bind_ok hmiddle, hafter]
  | .leaf _, .rule _, _, _, h, _ => h.elim
  | .node _ _ _ _, .terminal _, _, _, h, _ => h.elim

theorem exists_evaluateList_run :
    ∀ {trees : List Derivation} {symbols : List Symbol} {start stop : Nat},
    CoverAll grammar (tokens.map Token.kind) trees symbols start stop → ∀ state : Evaluation,
    ∃ values after,
      (evaluateList grammar tokens.toArray trees).run.run state = (.ok values, after) ∧
      List.Forall₂ Matches symbols values
  | [], [], _, _, _, state => by
      refine ⟨[], state, ?_, .nil⟩
      rw [evaluateList]
      rfl
  | _ :: _, _ :: _, _, _, h, state => by
      obtain ⟨_, hfirst, hrest⟩ := h
      obtain ⟨value, middle, hmiddle, hvalue⟩ := exists_evaluate_run hfirst state
      obtain ⟨values, after, hafter, hvalues⟩ := exists_evaluateList_run hrest middle
      refine ⟨value :: values, after, ?_, .cons hvalue hvalues⟩
      rw [evaluateList, Evaluating.run_bind_ok hmiddle, Evaluating.run_bind_ok hafter]
      rfl
  | [], _ :: _, _, _, h, _ => h.elim
  | _ :: _, [], _, _, h, _ => h.elim

end

/-- An utterance is interpreted to a value of the start symbol's shape; or it has
no derivation, for a cause that lies in its tokens, and nothing is evaluated. -/
theorem Parser.interpretTokens_cases (start : Rule) (tokens : List Token) (session : Session) :
    (∃ parsed after, interpretTokens start tokens session = (.ok parsed, after) ∧
      Shaped start parsed.value) ∨
    (∃ error, interpretTokens start tokens session = (.error error, { session }) ∧
      Refuses start tokens error) := by
  rw [interpretTokens, interpret_run]
  cases hchosen : chosen grammar start tokens with
  | ok choice =>
      obtain ⟨chart, tree, ties⟩ := choice
      obtain ⟨value, after, hrun, hshaped⟩ := exists_evaluate_run (covers_of_chosen hchosen)
        (chosenState start chart ties { session })
      rw [afterChoice, hrun]
      exact .inl ⟨_, _, rfl, hshaped⟩
  | error error =>
      exact .inr ⟨error, rfl, refuses_of_chosen hchosen⟩

theorem outcomeOf_of_shaped (entry : Entry) {parsed : Parsed}
    (h : Shaped entry.rule parsed.value) :
    ∃ action, Parser.outcomeOf parsed =
      .ok ⟨action, parsed.ties, parsed.reductions, parsed.chartItems⟩ := by
  obtain ⟨action, haction⟩ : ∃ action, parsed.value = .node action := by
    revert h
    cases entry <;> exact id
  exact ⟨action, by rw [Parser.outcomeOf, haction]⟩

/-- The parser after an utterance that it rejects: its counts have moved, and
nothing else. -/
def Parser.rejecting (parser : Parser) : Parser :=
  { parser with
    stats := { parser.stats with
      utterances := parser.stats.utterances + 1
      rejected := parser.stats.rejected + 1 } }

/-- What a parser does with an utterance: it evaluates a derivation to the end and
goes on from the session then, or there is nothing to evaluate. -/
theorem Parser.heard_cases (parser : Parser) (tokens : List Token) :
    (∃ parsed after outcome,
      interpretTokens parser.entry.rule tokens parser.session = (.ok parsed, after) ∧
      outcomeOf parsed = .ok outcome ∧
      parser.heard tokens = (.ok outcome, { parser.traced after.notes.toList with
        session := after.session
        stats := acceptedStats { parser.stats with utterances := parser.stats.utterances + 1 }
          parser.session after.session outcome.ties })) ∨
    (∃ error,
      interpretTokens parser.entry.rule tokens parser.session =
        (.error error, { session := parser.session }) ∧
      (∀ message, error ≠ .internal message) ∧
      parser.heard tokens = (.error error, parser.rejecting)) := by
  rcases interpretTokens_cases parser.entry.rule tokens parser.session with
    ⟨parsed, after, hrun, hshaped⟩ | ⟨error, hrun, hrefuses⟩
  · obtain ⟨action, hof⟩ := outcomeOf_of_shaped parser.entry hshaped
    refine .inl ⟨parsed, after, _, hrun, hof, ?_⟩
    rw [heard, hrun]
    dsimp only [Except.bind]
    rw [hof]
  · refine .inr ⟨error, hrun, hrefuses.ne_internal, ?_⟩
    rw [heard, hrun]
    cases parser with
    | mk entry session preferences trace? stats => cases trace? <;> rfl

/-- What an accepted utterance comes from: a derivation that is chosen for it, and the
evaluation of that. -/
theorem Parser.exists_choice_of_heard {parser : Parser} {tokens : List Token}
    {outcome : ParseOutcome} (h : (parser.heard tokens).1 = .ok outcome) :
    ∃ chart tree ties value after,
      chosen grammar parser.entry.rule tokens = .ok (chart, tree, ties) ∧
      (evaluate grammar tokens.toArray tree).run.run
          (chosenState parser.entry.rule chart ties { session := parser.session }) =
        (.ok value, after) ∧
      outcome = ⟨outcome.action, ties, after.reductions, chart.itemCount⟩ ∧
      (parser.heard tokens).2.trace? = (parser.traced after.notes.toList).trace? := by
  rcases parser.heard_cases tokens with
    ⟨parsed, after, other, hrun, hof, hheard⟩ | ⟨error, -, -, hheard⟩
  · rw [hheard] at h ⊢
    obtain rfl := Except.ok.inj h
    rw [interpretTokens, interpret_run] at hrun
    cases hchosen : chosen grammar parser.entry.rule tokens with
    | error error =>
        rw [hchosen] at hrun
        cases hrun
    | ok choice =>
        obtain ⟨chart, tree, ties⟩ := choice
        rw [hchosen, afterChoice] at hrun
        split at hrun
        · cases hrun
        next value state hvalue =>
          cases hrun
          refine ⟨chart, tree, ties, value, _, rfl, hvalue, ?_, rfl⟩
          rw [outcomeOf] at hof
          split at hof
          · cases hof
            rfl
          · cases hof
  · rw [hheard] at h
    cases h

/-- The table and the meanings agree, so evaluation never fails: the productions
find no fault in values of the shapes of their symbols, a derivation of any
nonterminal over any part of any tokens is evaluated in any state to a value of
the nonterminal's shape, and no utterance ends in an internal fault. -/
theorem evaluation_never_fails :
    (∀ production ∈ grammar.table, Agrees production) ∧
    (∀ (rule : Rule) (tokens : List Token) (tree : Derivation) (start stop : Nat)
        (state : Evaluation),
      Covers grammar (tokens.map Token.kind) tree (.rule rule) start stop →
      ∃ value after, (evaluate grammar tokens.toArray tree).run.run state = (.ok value, after) ∧
        Shaped rule value) ∧
    (∀ (parser : Parser) (tokens : List Token) (journal : Log.Journal) (message : String),
      ((parser.parse tokens).run journal).1.1 ≠ .error (.internal message)) := by
  refine ⟨fun production hmem => ?_, fun rule tokens tree start stop state h => ?_,
    fun parser tokens journal message => ?_⟩
  · rw [table_eq] at hmem
    exact agrees_of_mem hmem
  · exact exists_evaluate_run h state
  · rw [Parser.parse_fst]
    rcases parser.heard_cases tokens with ⟨_, _, outcome, -, -, hheard⟩ | ⟨error, -, hcause, hheard⟩
    · rw [hheard]
      simp
    · rw [hheard]
      exact fun hinternal => hcause message (Except.error.inj hinternal)

-- The words for numbers stand far down in the table.
set_option maxRecDepth 4000 in
/-- Three steps up, said to a session that sleeps. -/
theorem evaluation_of_movement :
    let tokens := [Token.ofWord "up" 0, Token.ofWord "three" 1, Token.closing 2]
    let number := Derivation.node 31 1 2 [.node 36 1 2 [.node 57 1 2 [.leaf 1]]]
    let tree := Derivation.node 2 0 3 [.node 13 0 2 [.node 18 0 2 [.node 26 0 2
      [.leaf 0, number]]], .leaf 2]
    let movement := Production.mk .movement [t "up", n .count] .movement
    (movement ∈ grammar.table ∧ Agrees movement) ∧
      Covers grammar (tokens.map Token.kind) tree (.rule .input) 0 3 ∧
      ∃ value after, (evaluate grammar tokens.toArray tree).run.run { session := .asleep } =
        (.ok value, after) ∧ Shaped .input value := by
  intro tokens number tree movement
  have hmem : movement ∈ grammar.table := by
    rw [table_eq]
    decide +kernel
  have hnumber : Covers grammar (tokens.map Token.kind) number (.rule .count) 1 2 :=
    ⟨rfl, rfl, _, rfl, rfl, 2, ⟨rfl, rfl, _, rfl, rfl, 2, ⟨rfl, rfl, _, rfl, rfl, 2,
      ⟨rfl, rfl, rfl⟩, rfl⟩, rfl⟩, rfl⟩
  have hcovers : Covers grammar (tokens.map Token.kind) tree (.rule .input) 0 3 :=
    ⟨rfl, rfl, _, rfl, rfl, 2, ⟨rfl, rfl, _, rfl, rfl, 2, ⟨rfl, rfl, _, rfl, rfl, 2,
      ⟨rfl, rfl, _, rfl, rfl, 1, ⟨rfl, rfl, rfl⟩, 2, hnumber, rfl⟩, rfl⟩, rfl⟩, 3,
      ⟨rfl, rfl, rfl⟩, rfl⟩
  exact ⟨⟨hmem, evaluation_never_fails.1 movement hmem⟩, hcovers,
    evaluation_never_fails.2.1 .input tokens tree 0 3 { session := .asleep } hcovers⟩

end SpokenKeys
