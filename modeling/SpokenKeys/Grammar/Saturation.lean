import SpokenKeys.Grammar.Production

/-!
Sets of nonterminals that are closed under the productions of a table. A sweep
adds to a set what the table calls for; sweeps are repeated until one adds
nothing. There are finitely many nonterminals, so that happens within as many
sweeps as there are of them.
-/

namespace SpokenKeys.Saturation

/-- Repeats a sweep until it adds nothing, at most the given number of times. -/
def repeatSweep (sweep : List Rule → List Rule) : Nat → List Rule → List Rule
  | 0, found => found
  | rounds + 1, found =>
      let next := sweep found
      if next.length = found.length then found else repeatSweep sweep rounds next

/-- The closure of a set of nonterminals under a sweep. -/
def saturate (sweep : List Rule → List Rule) (found : List Rule) : List Rule :=
  repeatSweep sweep (Rule.all.length + 1) found

def add (found : List Rule) (rule : Rule) : List Rule :=
  if rule ∈ found then found else rule :: found

def isFound (found : List Rule) : Symbol → Bool
  | .terminal _ => false
  | .rule rule => decide (rule ∈ found)

/-- One sweep for nonterminals that derive the empty string: every production
whose symbols are all found already adds its left-hand side. -/
def sweepNullable (productions : List Production) (found : List Rule) : List Rule :=
  productions.foldl
    (fun found production =>
      if production.rhs.all (isFound found) then add found production.lhs else found)
    found

def nullable (productions : List Production) : List Rule :=
  saturate (sweepNullable productions) []

/-- The nonterminals on a right-hand side, in order. -/
def rulesOf (symbols : List Symbol) : List Rule :=
  symbols.filterMap fun
    | .rule rule => some rule
    | .terminal _ => none

/-- One sweep for reachable nonterminals: every production of a nonterminal
found already adds those on its right-hand side. -/
def sweepReachable (productions : List Production) (found : List Rule) : List Rule :=
  productions.foldl
    (fun found production =>
      if production.lhs ∈ found then (rulesOf production.rhs).foldl add found else found)
    found

def reachable (productions : List Production) (start : Rule) : List Rule :=
  saturate (sweepReachable productions) [start]

end SpokenKeys.Saturation
