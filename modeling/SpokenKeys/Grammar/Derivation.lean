import SpokenKeys.Grammar.Basic

/-!
Derivations: the trees that say how a nonterminal derives a span of tokens.
-/

namespace SpokenKeys

/-- A derivation of a span of tokens. -/
inductive Derivation where
  /-- A terminal: the token at an index. -/
  | leaf (index : Nat)
  /-- A production over the tokens from start to stop, and how its symbols
  divide them. -/
  | node (production start stop : Nat) (children : List Derivation)
deriving Repr, Inhabited

namespace Derivation

mutual

def nodeCount : Derivation → Nat
  | .leaf _ => 0
  | .node _ _ _ children => 1 + nodeCountList children

def nodeCountList : List Derivation → Nat
  | [] => 0
  | child :: rest => nodeCount child + nodeCountList rest

end

mutual

/-- The tokens of a derivation from left to right. -/
def leaves : Derivation → List Nat
  | .leaf index => [index]
  | .node _ _ _ children => leavesList children

/-- The tokens of several derivations from left to right. -/
def leavesList : List Derivation → List Nat
  | [] => []
  | child :: rest => leaves child ++ leavesList rest

end

mutual

/-- A derivation is one of a symbol over a span: its productions are those of
the grammar, the spans of its children join, and its leaves have the labels of
their terminals. -/
def Covers (grammar : Grammar) (labels : List String) :
    Derivation → Symbol → Nat → Nat → Prop
  | .leaf index, .terminal label, start, stop =>
      index = start ∧ stop = start + 1 ∧ labels[index]? = some label
  | .node id left right children, .rule rule, start, stop =>
      left = start ∧ right = stop ∧
        ∃ production, grammar.production? id = some production ∧ production.lhs = rule ∧
          CoverAll grammar labels children production.rhs start stop
  | _, _, _, _ => False

/-- Derivations are those of symbols over spans that join to one. -/
def CoverAll (grammar : Grammar) (labels : List String) :
    List Derivation → List Symbol → Nat → Nat → Prop
  | [], [], start, stop => start = stop
  | child :: children, symbol :: symbols, start, stop =>
      ∃ middle, Covers grammar labels child symbol start middle ∧
        CoverAll grammar labels children symbols middle stop
  | _, _, _, _ => False

end

end Derivation

end SpokenKeys
