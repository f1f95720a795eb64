import SpokenKeys.Proofs.Extraction

/-!
The derivation that is read out of a chart is genuine: it has the start symbol at
its root, its productions are those of the table, the spans of its children join,
and its leaves are the tokens, each once and in order. The only way for reading
to fail is that nonterminals are nested deeper than derivations may be.
-/

namespace SpokenKeys

namespace Derivation

variable {grammar : Grammar} {labels : List String}

mutual

/-- The leaves of a derivation of a span are the tokens of the span. -/
theorem leaves_of_covers : ∀ {tree : Derivation} {symbol : Symbol} {start stop : Nat},
    Covers grammar labels tree symbol start stop →
      tree.leaves = List.range' start (stop - start)
  | .leaf _, .terminal _, _, _, h => by
      obtain ⟨rfl, rfl, -⟩ := h
      rw [Nat.add_sub_cancel_left, leaves, List.range'_one]
  | .node _ _ _ _, .rule _, _, _, h => by
      obtain ⟨-, -, _, -, -, hchildren⟩ := h
      rw [leaves]
      exact leavesList_of_coverAll hchildren
  | .leaf _, .rule _, _, _, h => h.elim
  | .node _ _ _ _, .terminal _, _, _, h => h.elim

theorem leavesList_of_coverAll :
    ∀ {trees : List Derivation} {symbols : List Symbol} {start stop : Nat},
      CoverAll grammar labels trees symbols start stop →
        leavesList trees = List.range' start (stop - start)
  | [], [], _, _, h => by
      obtain rfl := h
      rw [Nat.sub_self, leavesList, List.range'_zero]
  | _ :: _, _ :: _, start, stop, h => by
      obtain ⟨middle, hfirst, hrest⟩ := h
      obtain ⟨front, rfl⟩ := Nat.exists_eq_add_of_le (le_of_covers hfirst)
      obtain ⟨back, rfl⟩ := Nat.exists_eq_add_of_le (le_of_coverAll hrest)
      rw [leavesList, leaves_of_covers hfirst, leavesList_of_coverAll hrest,
        Nat.add_sub_cancel_left, Nat.add_sub_cancel_left, Nat.add_assoc start,
        Nat.add_sub_cancel_left, List.range'_append_1]
  | [], _ :: _, _, _, h => h.elim
  | _ :: _, [], _, _, h => h.elim

end

end Derivation

namespace Chart

/-- The derivation of a chart is genuine, whatever the table. It is a tree of the
start symbol over all tokens, in which every node has a production of the table
and its children stand for the symbols on the right, one after the other, and
whose leaves are the tokens from first to last. Otherwise nonterminals are nested
in one another over the tokens, deeper than derivations may be. -/
theorem derive_genuine (table : List Production) (start : Rule) (tokens : List Token)
    (chart : Chart) (h : build (.ofProductions table) start tokens = .ok chart) :
    (∃ tree ties, chart.derive = .ok (tree, ties) ∧
      tree.Covers (.ofProductions table) (tokens.map Token.kind) (.rule start) 0 tokens.length ∧
      tree.leaves = List.range tokens.length) ∨
    (chart.derive = .error (.tooDeep (Limits.derivationDepth + 1)) ∧
      Nests table (tokens.map Token.kind) (Limits.derivationDepth + 1) start 0 tokens.length) := by
  rcases derive_recovers h with ⟨tree, ties, hderive, hcovers⟩ | ⟨hdeep, hnests⟩
  · refine .inl ⟨tree, ties, hderive, hcovers, ?_⟩
    rw [Derivation.leaves_of_covers hcovers, Nat.sub_zero, List.range_eq_range']
  · rw [Grammar.table_ofProductions] at hnests
    exact .inr ⟨hdeep, hnests⟩

/-- A table with a nonterminal that derives nothing and recurs on the left. -/
def countingTable : List Production := [
  ⟨.commands, [.rule .count, .terminal "up", .rule .commands], .commands⟩,
  ⟨.commands, [], .commands⟩,
  ⟨.count, [.rule .count, .terminal "two"], .count⟩,
  ⟨.count, [], .count⟩]

/-- Counts that recur on the left, and one that is passed over when it is
predicted, are found again in the derivation. -/
theorem counted_steps_derived :
    let tokens := [Token.ofWord "two" 0, .ofWord "two" 1, .ofWord "up" 2, .ofWord "up" 3]
    ∃ chart tree ties, build (.ofProductions countingTable) .commands tokens = .ok chart ∧
      chart.derive = .ok (tree, ties) ∧
      tree.Covers (.ofProductions countingTable) (tokens.map Token.kind) (.rule .commands) 0 4 ∧
      tree.leaves = [0, 1, 2, 3] := by
  intro tokens
  have hcheck : ((build (.ofProductions countingTable) .commands tokens).bind derive).isOk =
      true := by
    decide +kernel
  cases hbuild : build (.ofProductions countingTable) .commands tokens with
  | error failure =>
      rw [hbuild] at hcheck
      cases hcheck
  | ok chart =>
      rw [hbuild] at hcheck
      rcases derive_genuine countingTable .commands tokens chart hbuild with
        ⟨tree, ties, hderive, hcovers, hleaves⟩ | ⟨hdeep, -⟩
      · exact ⟨chart, tree, ties, rfl, hderive, hcovers, hleaves⟩
      · simp only [Except.bind, hdeep] at hcheck
        cases hcheck

end Chart

end SpokenKeys
