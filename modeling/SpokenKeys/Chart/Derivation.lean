import SpokenKeys.Chart.Basic
import SpokenKeys.Grammar.Derivation

/-!
The derivation that is read out of a chart. Of several alternatives that derive
a span the one declared first is taken; of several ways to divide a span among
the symbols of a production the last symbol gets the fewest tokens, then the one
before it, and so on. Every choice counts as a tie.
-/

namespace SpokenKeys

namespace Chart

/-- Whether the symbols before the mark of a production derive a span. -/
def prefixReaches (chart : Chart) (production dot start stop : Nat) : Bool :=
  if dot = 0 then start == stop else chart.contains stop ⟨production, dot, start⟩

/-- The positions from right down to start. -/
def splitPoints (start right : Nat) : List Nat :=
  ((List.range (right + 1 - start)).map (start + ·)).reverse

/-- A way of deriving a nonterminal over a span, with the number of ties. -/
abbrev Deriver := Rule → Nat → Nat → Except Failure (Derivation × Nat)

/-- Divides a span among the symbols of a production, the last one first. The
symbols come with the number of symbols before them; children found so far
stand at the right of the position reached. -/
def split (chart : Chart) (derive : Deriver) (lhs : Rule) (id start stop : Nat) :
    List (Symbol × Nat) → Nat → List Derivation → Nat →
      Except Failure (List Derivation × Nat)
  | [], right, children, ties =>
      if right = start then .ok (children, ties) else .error (.inconsistent lhs start stop)
  | (.terminal _, _) :: rest, right, children, ties =>
      match right with
      | 0 => .error (.inconsistent lhs start stop)
      | index + 1 => split chart derive lhs id start stop rest index (.leaf index :: children) ties
  | (.rule rule, dot) :: rest, right, children, ties =>
      let options := (splitPoints start right).filter fun left =>
        chart.prefixReaches id dot start left && !(chart.completed rule left right).isEmpty
      match options with
      | [] => .error (.inconsistent lhs start stop)
      | left :: others => do
          let (child, below) ← derive rule left right
          let tie := if others.isEmpty then 0 else 1
          split chart derive lhs id start stop rest left (child :: children)
            (ties + tie + below)

/-- The chosen derivation of a nonterminal over a span. The first argument is
the number of levels that are left. -/
def deriveNode (chart : Chart) : Nat → Deriver
  | 0, _, _, _ => .error (.tooDeep (Limits.derivationDepth + 1))
  | levels + 1, rule, start, stop =>
      match chart.completed rule start stop with
      | [] => .error (.inconsistent rule start stop)
      | id :: others => do
          let symbols := match chart.grammar.production? id with
            | some production => production.rhs.zipIdx.reverse
            | none => []
          let (children, ties) ←
            chart.split (deriveNode chart levels) rule id start stop symbols stop [] 0
          let tie := if others.isEmpty then 0 else 1
          .ok (.node id start stop children, ties + tie)

/-- The chosen derivation of the whole token list, with the number of ties. -/
def derive (chart : Chart) : Except Failure (Derivation × Nat) :=
  chart.deriveNode (Limits.derivationDepth + 1) chart.start 0 chart.tokenCount

end Chart

end SpokenKeys
