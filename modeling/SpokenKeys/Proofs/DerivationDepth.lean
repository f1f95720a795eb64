import SpokenKeys.Proofs.Chaining
import SpokenKeys.Proofs.Rejection

/-!
How deep derivations of the command grammar are. Every word takes at most two
levels, a modifier for its key and for the command under it, and a few more come
without a word. So within the limit on tokens no derivation is too deep.
-/

namespace SpokenKeys

open Commands

namespace Derivation

mutual

/-- Number of nodes on the longest way down. -/
def levels : Derivation → Nat
  | .leaf _ => 0
  | .node _ _ _ children => 1 + levelsList children

def levelsList : List Derivation → Nat
  | [] => 0
  | child :: rest => max (levels child) (levelsList rest)

end

/-- Depth of the deepest node, the root being at depth zero. -/
def depth (tree : Derivation) : Nat := tree.levels - 1

theorem exists_of_lt_levelsList {trees : List Derivation} {depth : Nat}
    (h : depth < levelsList trees) : ∃ tree ∈ trees, depth < tree.levels := by
  induction trees with
  | nil => exact absurd h (Nat.not_lt_zero depth)
  | cons first rest ih =>
      rcases lt_max_iff.mp h with hfirst | hrest
      · exact ⟨first, List.mem_cons_self, hfirst⟩
      · obtain ⟨tree, hmem, htree⟩ := ih hrest
        exact ⟨tree, List.mem_cons_of_mem _ hmem, htree⟩

end Derivation

namespace Chart

open SpokenKeys.Derivation

variable {grammar : Grammar} {rule : Rule} {labels : List String} {tree : Derivation}
  {depth first last : Nat}

/-- In a derivation with more levels nonterminals are nested that deep. -/
theorem nests_of_covers (h : Covers grammar labels tree (.rule rule) first last)
    (hlast : last ≤ labels.length) (hdepth : depth < tree.levels) :
    Nests grammar.table labels depth rule first last := by
  induction depth generalizing tree rule first last with
  | zero => exact .here (le_of_covers h) hlast
  | succ depth ih =>
      match tree, h with
      | .node id _ _ children, ⟨_, _, production, hproduction, hlhs, hchildren⟩ =>
        rw [levels, Nat.add_comm 1, Nat.add_lt_add_iff_right] at hdepth
        obtain ⟨child, hmem, hchild⟩ := exists_of_lt_levelsList hdepth
        obtain ⟨before, symbol, after, left, right, hrhs, hleft, hright, hbefore, hinner, hafter⟩ :=
          split_of_mem hchildren hmem
        match child, symbol, hinner with
        | .leaf _, .terminal _, _ => exact absurd hchild (Nat.not_lt_zero depth)
        | .node _ _ _ _, .rule inner, hinner =>
          have hsymbol : production.rhs[before.length]? = some (.rule inner) := by
            rw [hrhs, List.getElem?_append_right (Nat.le_refl _), Nat.sub_self]
            rfl
          rw [← hlhs]
          refine .inside (Grammar.mem_table_of_production? hproduction) hsymbol hleft hright hlast
            ?_ ?_ (ih hinner (hright.trans hlast) hchild)
          · rwa [hrhs, List.take_left]
          · rwa [hrhs, ← List.drop_drop, List.drop_left]

end Chart

namespace Commands

/-- A derivation is no deeper than two levels for each token and four more. -/
theorem depth_le_of_covers {labels : List String} {tree : Derivation} {rule : Rule}
    {first last : Nat} (h : tree.Covers grammar labels (.rule rule) first last)
    (hlast : last ≤ labels.length) : tree.depth ≤ 2 * (last - first) + 4 := by
  by_contra hdeep
  have hlevels : 2 * (last - first) + 5 < tree.levels := by
    rw [Derivation.depth] at hdeep
    omega
  obtain ⟨-, hdepth⟩ := (Chart.nests_of_covers h hlast hlevels).depth_le fits ranks_fall
  have hrank := rank_le rule
  omega

end Commands

/-- Derivations are never too deep. Whatever tokens a chart is built for, within
their limit, one is read out of it, no deeper than two levels for each token and
four more, which is far from the limit on depth. So neither an utterance nor a
fragment, however long, is ever refused for its depth. -/
theorem never_too_deep :
    (∀ (start : Rule) (tokens : List Token) (chart : Chart),
      tokens.length ≤ Limits.tokens → Chart.build grammar start tokens = .ok chart →
      ∃ tree ties, chart.derive = .ok (tree, ties) ∧
        tree.depth ≤ 2 * tokens.length + 4 ∧ tree.depth ≤ Limits.derivationDepth) ∧
    (∀ (parser : Parser) (tokens : List Token) (journal : Log.Journal) (max : Nat),
      ((parser.parse tokens).run journal).1.1 ≠ .error (.tooDeep max)) ∧
    ∀ (parser : Parser) (rule : Rule) (tokens : List Token) (journal : Log.Journal) (max : Nat),
      parser.fragment journal rule tokens ≠ .error (.tooDeep max) := by
  refine ⟨fun start tokens chart hlength hbuild => ?_, fun parser tokens journal max h => ?_,
    fun parser rule tokens journal max h => ?_⟩
  · obtain ⟨tree, ties, hderive, hcovers⟩ := derive_eq_ok hlength hbuild
    have hdepth := depth_le_of_covers hcovers (by rw [List.length_map])
    have hlimits : Limits.tokens = 257 ∧ Limits.derivationDepth = 2048 := ⟨rfl, rfl⟩
    exact ⟨tree, ties, hderive, hdepth, by omega⟩
  · rw [Parser.parse_fst] at h
    exact (Parser.refuses_of_heard_error h).ne_tooDeep max rfl
  · exact (Parser.refuses_of_fragment_error h).ne_tooDeep max rfl

-- The modifiers stand far down in the table.
set_option maxRecDepth 4000 in
/-- Two modifiers take two levels each, and a step with no count three more. -/
theorem held_step_within_depth :
    let tokens := [Token.ofWord "control" 0, .ofWord "shift" 1, .ofWord "up" 2]
    let step := Derivation.node 18 2 3 [.node 26 2 3 [.leaf 2, .node 30 3 3 []]]
    let held := Derivation.node 21 1 3 [.node 161 1 3 [.leaf 1, step]]
    let tree := Derivation.node 13 0 3 [.node 21 0 3 [.node 157 0 3 [.leaf 0, held]]]
    tokens.length ≤ Limits.tokens ∧
      ∃ chart ties, Chart.build grammar .commands tokens = .ok chart ∧
        chart.derive = .ok (tree, ties) ∧ tree.depth = 7 ∧
        tree.depth ≤ 2 * tokens.length + 4 ∧ tree.depth ≤ Limits.derivationDepth := by
  intro tokens step held tree
  have hlength : tokens.length ≤ Limits.tokens := by decide
  have hstep : step.Covers grammar (tokens.map Token.kind) (.rule .command) 2 3 :=
    ⟨rfl, rfl, _, rfl, rfl, 3, ⟨rfl, rfl, _, rfl, rfl, 3, ⟨rfl, rfl, rfl⟩, 3,
      ⟨rfl, rfl, _, rfl, rfl, rfl⟩, rfl⟩, rfl⟩
  have hheld : held.Covers grammar (tokens.map Token.kind) (.rule .command) 1 3 :=
    ⟨rfl, rfl, _, rfl, rfl, 3, ⟨rfl, rfl, _, rfl, rfl, 2, ⟨rfl, rfl, rfl⟩, 3, hstep, rfl⟩, rfl⟩
  have hcovers : tree.Covers grammar (tokens.map Token.kind) (.rule .commands) 0 3 :=
    ⟨rfl, rfl, _, rfl, rfl, 3, ⟨rfl, rfl, _, rfl, rfl, 3, ⟨rfl, rfl, _, rfl, rfl, 1,
      ⟨rfl, rfl, rfl⟩, 3, hheld, rfl⟩, rfl⟩, rfl⟩
  obtain ⟨chart, ties, hchosen⟩ := chosen_of_covers (List.cons_ne_nil _ _) hlength hcovers
  obtain ⟨hbuild, hderive⟩ := chosen_eq_ok hchosen
  obtain ⟨other, ties', hderive', hdepth, hlimit⟩ :=
    never_too_deep.1 .commands tokens chart hlength hbuild
  rw [hderive] at hderive'
  cases hderive'
  exact ⟨hlength, chart, ties, hbuild, hderive, rfl, hdepth, hlimit⟩

end SpokenKeys
