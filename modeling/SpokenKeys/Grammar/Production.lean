import SpokenKeys.Grammar.Rule
import SpokenKeys.Meaning

/-!
Productions: one alternative of a nonterminal each, with its meaning. A
production is known by its number, which is its position in the table.
-/

namespace SpokenKeys

/-- A symbol on a right-hand side. -/
inductive Symbol where
  /-- Matches a token of that label. -/
  | terminal (label : String)
  | rule (nonterminal : Rule)
deriving DecidableEq, Repr, Inhabited

/-- The symbol as productions show it. -/
def Symbol.display : Symbol → String
  | .terminal label => label
  | .rule nonterminal => nonterminal.name

/-- One alternative of a nonterminal. -/
structure Production where
  lhs : Rule
  rhs : List Symbol
  meaning : Meaning
deriving DecidableEq, Repr, Inhabited

namespace Production

def length (production : Production) : Nat := production.rhs.length

/-- The production with its right-hand side, or a mark if that is empty. -/
def display (production : Production) : String :=
  production.lhs.name ++ " ::=" ++
    if production.rhs.isEmpty then " <empty>"
    else String.join (production.rhs.map fun symbol => " " ++ symbol.display)

def describe (production : Production) (id : Nat) : String :=
  s!"Production#{id}({production.display})"

end Production

end SpokenKeys
