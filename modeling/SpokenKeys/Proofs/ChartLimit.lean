import SpokenKeys.Proofs.Chaining
import SpokenKeys.Proofs.ConstructedSets
import SpokenKeys.Proofs.Hearing

/-!
The limit on chart items is never what an utterance is refused for. Within the limit on
tokens the sets of the command grammar never hold more items than a chart may, so that a
chart is built exactly if the utterance is derived.
-/

namespace SpokenKeys

open Commands

theorem Commands.constructed_le (start : Rule) {tokens : List Token}
    (hlength : tokens.length ≤ Limits.tokens) :
    Chart.totalSize (Chart.constructed grammar start tokens) ≤ Limits.chartItems :=
  totalSize_le (by rwa [List.length_map]) (Chart.constructed_exact grammar start tokens)

/-- Within the limit on tokens the command grammar has a chart for exactly what it derives,
from its entry points and from every other nonterminal. -/
theorem Commands.exists_chart_iff (start : Rule) {tokens : List Token}
    (hlength : tokens.length ≤ Limits.tokens) :
    (∃ chart, Chart.build grammar start tokens = .ok chart) ↔
      grammar.Generates start (tokens.map Token.kind) :=
  Chart.exists_build_iff (Commands.constructed_le start hlength)

/-- No chart of the command grammar is too large. Whatever tokens it is built for,
within their limit, and whatever nonterminal, the sets that are constructed hold no more
items than a chart may, so that it is not for their number that there is no chart. An
utterance that is derived is accepted, however long it is, and neither an utterance nor
a fragment ever ends in an internal fault. -/
theorem charts_never_too_large :
    (∀ (start : Rule) (tokens : List Token), tokens.length ≤ Limits.tokens →
      let sets := Chart.constructed grammar start tokens
      Chart.totalSize sets ≤ Limits.chartItems ∧
      (∀ items, Chart.build grammar start tokens ≠ .error (.tooLarge items)) ∧
      ∀ chart, Chart.build grammar start tokens = .ok chart →
        chart.sets = sets ∧ chart.itemCount ≤ Limits.chartItems) ∧
    (∀ (parser : Parser) (tokens : List Token) (journal : Log.Journal),
      tokens.length ≤ Limits.tokens →
      grammar.Generates parser.entry.rule (tokens.map Token.kind) →
      ∃ outcome, ((parser.parse tokens).run journal).1.1 = .ok outcome ∧
        outcome.chartItems =
          Chart.totalSize (Chart.constructed grammar parser.entry.rule tokens)) ∧
    (∀ (parser : Parser) (tokens : List Token) (journal : Log.Journal) (message : String),
      ((parser.parse tokens).run journal).1.1 ≠ .error (.internal message)) ∧
    ∀ (parser : Parser) (rule : Rule) (tokens : List Token) (journal : Log.Journal)
        (message : String),
      parser.fragment journal rule tokens ≠ .error (.internal message) := by
  refine ⟨fun start tokens hlength => ?_, fun parser tokens journal hlength hgenerates => ?_,
    fun parser tokens journal message h => ?_, fun parser rule tokens journal message h => ?_⟩
  · have hle := Commands.constructed_le start hlength
    refine ⟨hle, fun items hlarge => ?_, fun chart hbuild => ?_⟩
    · exact absurd ((Chart.build_tooLarge_iff grammar start tokens).mp ⟨items, hlarge⟩)
        (Nat.not_lt.mpr hle)
    · have hsets := Chart.sets_of_build hbuild
      exact ⟨hsets, by rwa [Chart.itemCount_eq, hsets]⟩
  · simp only [Parser.parse_fst]
    obtain ⟨outcome, houtcome⟩ := Parser.heard_of_generates hlength hgenerates
    obtain ⟨chart, tree, ties, value, after, hchosen, -, hsame, -⟩ :=
      Parser.exists_choice_of_heard houtcome
    refine ⟨outcome, houtcome, ?_⟩
    rw [hsame, ← Chart.sets_of_build (chosen_eq_ok hchosen).1, ← Chart.itemCount_eq]
  · rw [Parser.parse_fst] at h
    exact (Parser.refuses_of_heard_error h).ne_internal message rfl
  · exact (Parser.refuses_of_fragment_error h).ne_internal message rfl

/-- As many steps as there may be words. -/
theorem longest_run_of_steps_within_limit :
    let tokens := (List.range Limits.words).map (Token.ofWord "up") ++ [Token.closing Limits.words]
    let sets := Chart.constructed grammar Entry.strict.rule tokens
    tokens.length = Limits.tokens ∧ Chart.totalSize sets ≤ Limits.chartItems ∧
      grammar.Generates Entry.strict.rule (tokens.map Token.kind) ∧
      ∃ outcome, ((({ entry := .strict } : Parser).parse tokens).run {}).1.1 = .ok outcome ∧
        outcome.chartItems = Chart.totalSize sets := by
  intro tokens sets
  have hlength : tokens.length = Limits.tokens := by
    rw [List.length_append, List.length_map, List.length_range]
    rfl
  have hstep : ∀ wordNo, Says .command [Token.ofWord "up" wordNo] (.node (.move .up)) :=
    fun wordNo => says_command.mpr ⟨.movement, by decide,
      says_movement.mpr ⟨_, [], .up, rfl, rfl, .inl ⟨rfl, rfl⟩⟩⟩
  have hsteps : Says .commands ((List.range Limits.words).map (Token.ofWord "up"))
      (.node (.chain ((List.range Limits.words).map fun _ => .move .up))) := by
    refine says_commands.mpr ⟨(List.range Limits.words).map fun wordNo => [.ofWord "up" wordNo],
      _, by simp [Limits.words], ?_, ?_, rfl⟩
    · rw [← List.flatMap_def, List.map_eq_flatMap]
    · exact List.forall₂_map_left_iff.mpr (List.forall₂_map_right_iff.mpr
        (List.forall₂_same.mpr fun wordNo _ => hstep wordNo))
  have hgenerates : grammar.Generates Entry.strict.rule (tokens.map Token.kind) := by
    rw [List.map_append]
    exact Entry.generates_iff.mpr (.inr ⟨[], _, .commands, by decide, rfl, .nil,
      hsteps.derives.append (.terminal .nil)⟩)
  exact ⟨hlength, (charts_never_too_large.1 _ tokens (Nat.le_of_eq hlength)).1, hgenerates,
    charts_never_too_large.2.1 { entry := .strict } tokens {} (Nat.le_of_eq hlength) hgenerates⟩

end SpokenKeys
