import SpokenKeys.Proofs.Hearing
import SpokenKeys.Proofs.SpokenCommands

/-!
What parsers return. An accepted utterance comes to nothing or to a chain of
command trees, and every chain of command trees is returned for the utterance
that says it.
-/

namespace SpokenKeys

open Commands

namespace Parser

variable {parser : Parser} {tokens : List Token} {outcome : ParseOutcome}

/-- An accepted utterance comes to nothing, or to the commands that it says. -/
theorem exists_says_of_heard (h : (parser.heard tokens).1 = .ok outcome) :
    outcome.action = .idle ∨ ∃ body first rest,
      Says .commands body (.node (.chain (first :: rest))) ∧
        outcome.action = .chain (first :: rest) := by
  obtain ⟨verdict, hhears, -, haction, -⟩ := exists_hears_of_heard h
  cases hhears with
  | silence => exact .inl haction
  | turn => exact .inl haction
  | @chain front body closing first rest _ hbody =>
      cases hsession : parser.session with
      | asleep =>
          rw [hsession] at haction
          exact .inl haction
      | awake =>
          rw [hsession] at haction
          exact .inr ⟨body, first, rest, hbody, haction⟩

/-- An awake parser hears command trees from the utterance that says them. -/
theorem heard_utterance {commands : List Action} (hsession : parser.session = .awake)
    (hnonempty : commands ≠ []) (hcommands : ∀ command ∈ commands, command.isCommand = true)
    (hwords : (commands.flatMap Action.spoken).length ≤ Limits.words) :
    ∃ outcome, (parser.heard (Action.utterance commands).tokens).1 = .ok outcome ∧
      outcome.action = .chain commands := by
  obtain ⟨body, closing, htokens, hclosing, hsaid⟩ :=
    Action.exists_tokens_of_streamOf (commands.flatMap Action.spoken)
  have hbody := Action.says_utterance hnonempty hcommands hsaid
  have hlength : (body ++ [closing]).length ≤ Limits.tokens := by
    rw [List.length_append, ← hsaid.length_eq]
    exact Nat.succ_le_succ hwords
  cases commands with
  | nil => exact absurd rfl hnonempty
  | cons first rest =>
      rw [Action.utterance, htokens]
      exact heard_commands hsession hbody hclosing hlength

end Parser

/-- What parsers return are exactly the chains of command trees. An accepted
utterance comes to nothing or to a chain of one or more command trees. And any
command trees, as long as their words are no more than an utterance may have,
are returned by an awake parser for the utterance that says them. -/
theorem returned_actions_are_command_trees :
    (∀ (parser : Parser) (tokens : List Token) (journal : Log.Journal) (outcome : ParseOutcome),
      ((parser.parse tokens).run journal).1.1 = .ok outcome →
      outcome.action = .idle ∨ ∃ commands : List Action, commands ≠ [] ∧
        (∀ command ∈ commands, command.isCommand = true) ∧ outcome.action = .chain commands) ∧
    (∀ (commands : List Action), commands ≠ [] →
      (∀ command ∈ commands, command.isCommand = true) →
      (commands.flatMap Action.spoken).length ≤ Limits.words →
      ∀ (parser : Parser) (journal : Log.Journal), parser.session = .awake →
        ∃ outcome,
          ((parser.parse (Action.utterance commands).tokens).run journal).1.1 = .ok outcome ∧
          outcome.action = .chain commands) := by
  constructor
  · intro parser tokens journal outcome houtcome
    rw [Parser.parse_fst] at houtcome
    rcases Parser.exists_says_of_heard houtcome with hidle | ⟨body, first, rest, hphrase, haction⟩
    · exact .inl hidle
    · obtain ⟨pieces, commands, -, -, hpieces, hvalue⟩ := says_commands.mp hphrase
      cases hvalue
      have hcommands : List.Forall₂ (fun command piece => command.isCommand = true ∧
          Says .command piece (.node command)) (first :: rest) pieces :=
        hpieces.flip.imp fun command piece hpiece => ⟨isCommand_of_phrase hpiece, hpiece⟩
      exact .inr ⟨first :: rest, List.cons_ne_nil _ _,
        ((List.forall₂_and_left _ _).mp hcommands).1, haction⟩
  · intro commands hnonempty hcommands hwords parser journal hsession
    rw [Parser.parse_fst]
    exact Parser.heard_utterance hsession hnonempty hcommands hwords

/-- Two keys held while the cursor moves three steps, then a letter in upper case
and a run of words. -/
theorem held_steps_and_words_returned :
    let commands : List Action := [.hold [.control, .shift] (.times 3 (.move .left)), .char 'A',
      .words [.word "hello", .word "world"]]
    let parser : Parser := { entry := .tolerant }
    ∃ outcome, ((parser.parse (Action.utterance commands).tokens).run {}).1.1 = .ok outcome ∧
      outcome.action = .chain commands ∧
      (outcome.action = .idle ∨ ∃ others : List Action, others ≠ [] ∧
        (∀ command ∈ others, command.isCommand = true) ∧ outcome.action = .chain others) := by
  intro commands parser
  obtain ⟨outcome, houtcome, haction⟩ := returned_actions_are_command_trees.2 commands
    (List.cons_ne_nil _ _) (by decide) (by decide) parser {} rfl
  exact ⟨outcome, houtcome, haction,
    returned_actions_are_command_trees.1 parser _ {} outcome houtcome⟩

end SpokenKeys
