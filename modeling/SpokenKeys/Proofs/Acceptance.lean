import SpokenKeys.Proofs.CommandOutline
import SpokenKeys.Proofs.Evaluation

/-!
Which utterances the command grammar accepts. Within the limits on tokens and
chart items a derivation is chosen for an utterance exactly when the start
symbol derives it, for no derivation is too deep.
-/

namespace SpokenKeys

open SpokenKeys.Derivation

/-- A chart of the command grammar has a derivation, which is not too deep. -/
theorem Commands.derive_eq_ok {start : Rule} {tokens : List Token} {chart : Chart}
    (hlength : tokens.length ≤ Limits.tokens)
    (hbuild : Chart.build grammar start tokens = .ok chart) :
    ∃ tree ties, chart.derive = .ok (tree, ties) ∧
      Covers grammar (tokens.map Token.kind) tree (.rule start) 0 tokens.length := by
  rcases Chart.derive_recovers hbuild with htree | ⟨-, hnests⟩
  · exact htree
  · obtain ⟨-, hdepth⟩ := hnests.depth_le fits ranks_fall
    have hrank := rank_le start
    have hlimits : Limits.tokens = 257 ∧ Limits.derivationDepth = 2048 := ⟨rfl, rfl⟩
    omega

/-- The choice of a derivation for an utterance that is neither empty nor too
long: there is one, or there is no chart. -/
theorem Commands.chosen_cases (start : Rule) {tokens : List Token} (hnonempty : tokens ≠ [])
    (hlength : tokens.length ≤ Limits.tokens) :
    (∃ chart tree ties, chosen grammar start tokens = .ok (chart, tree, ties) ∧
      Covers grammar (tokens.map Token.kind) tree (.rule start) 0 tokens.length) ∨
    (∃ failure, Chart.build grammar start tokens = .error failure ∧
      chosen grammar start tokens = .error (.ofFailure tokens failure)) := by
  rw [chosen, if_neg (by simpa using hnonempty), if_neg (Nat.not_lt.mpr hlength)]
  cases hbuild : Chart.build grammar start tokens with
  | error failure => exact .inr ⟨failure, rfl, rfl⟩
  | ok chart =>
      obtain ⟨tree, ties, hderive, hcovers⟩ := derive_eq_ok hlength hbuild
      refine .inl ⟨chart, tree, ties, ?_, hcovers⟩
      dsimp only
      rw [hderive]

/-- The derivation that is chosen for an utterance is one of its start symbol. -/
theorem Commands.covers_of_chosen {start : Rule} {tokens : List Token} {chart : Chart}
    {tree : Derivation} {ties : Nat}
    (h : chosen grammar start tokens = .ok (chart, tree, ties)) :
    Covers grammar (tokens.map Token.kind) tree (.rule start) 0 tokens.length := by
  obtain ⟨hnonempty, hlength⟩ := within_of_chosen h
  rcases chosen_cases start hnonempty hlength with
    ⟨chart, other, ties, hchosen, hcovers⟩ | ⟨failure, -, hchosen⟩
  · rw [hchosen] at h
    cases h
    exact hcovers
  · rw [hchosen] at h
    cases h

theorem Commands.generates_of_chosen {start : Rule} {tokens : List Token}
    {choice : Chart × Derivation × Nat} (h : chosen grammar start tokens = .ok choice) :
    grammar.Generates start (tokens.map Token.kind) := by
  obtain ⟨chart, tree, ties⟩ := choice
  have hcovers := covers_of_chosen h
  rw [← List.length_map Token.kind] at hcovers
  exact generates_of_covers hcovers

end SpokenKeys
