import SpokenKeys.Grammar.Saturation

/-!
Grammars: a table of productions with the lookups that parsing needs. The
lookups are determined by the table, so two grammars with one table are equal.
-/

namespace SpokenKeys

/-- The positions of a nonterminal's productions in a table, in order. -/
def alternativesIn (productions : List Production) (rule : Rule) : List Nat :=
  (productions.zipIdx.filter fun entry => entry.1.lhs == rule).map Prod.snd

/-- A table of productions and its lookups. -/
structure Grammar where
  productions : Array Production
  /-- The alternatives of every nonterminal, by its index. -/
  alternativeTable : Array (List Nat)
  /-- The nonterminals that derive the empty string. -/
  nullableRules : List Rule
  alternativeTable_eq :
    alternativeTable = (Rule.all.map (alternativesIn productions.toList)).toArray
  nullableRules_eq : nullableRules = Saturation.nullable productions.toList

namespace Grammar

def ofProductions (productions : List Production) : Grammar where
  productions := productions.toArray
  alternativeTable := (Rule.all.map (alternativesIn productions)).toArray
  nullableRules := Saturation.nullable productions
  alternativeTable_eq := by simp
  nullableRules_eq := by simp

def table (grammar : Grammar) : List Production := grammar.productions.toList

/-- The production with a number. -/
def production? (grammar : Grammar) (id : Nat) : Option Production := grammar.productions[id]?

/-- The numbers of a nonterminal's productions, in the order they are declared. -/
def alternatives (grammar : Grammar) (rule : Rule) : List Nat :=
  grammar.alternativeTable.getD rule.index []

theorem alternatives_eq (grammar : Grammar) (rule : Rule) :
    grammar.alternatives rule = alternativesIn grammar.table rule := by
  have h := Rule.all_getElem?_index rule
  simp only [alternatives, grammar.alternativeTable_eq, table, Array.getD_eq_getD_getElem?,
    List.getElem?_toArray, List.getElem?_map, h, Option.map_some, Option.getD_some]

def isNullable (grammar : Grammar) (rule : Rule) : Bool :=
  decide (rule ∈ grammar.nullableRules)

/-- The nonterminals that can be reached from a start symbol. -/
def reachable (grammar : Grammar) (start : Rule) : List Rule :=
  Saturation.reachable grammar.table start

/-- The words among symbols: the terminals that are not labels of tokens with
another spelling. -/
def wordsOf (symbols : List Symbol) : List String :=
  symbols.filterMap fun
    | .terminal label =>
        if label = Token.anyLabel ∨ label = Token.endLabel then none else some label
    | .rule _ => none

/-- The words that some production of a reachable nonterminal matches, in order
and each once. The tokenizer labels these words, and no others, as themselves. -/
def vocabulary (grammar : Grammar) (entry : Entry) : List String :=
  let rules := grammar.reachable entry.rule
  let words := (grammar.table.filter fun production => production.lhs ∈ rules).flatMap
    fun production => wordsOf production.rhs
  (words.mergeSort fun a b => decide (a ≤ b)).eraseReps

/-- A defect of a table. -/
inductive Issue where
  /-- A right-hand side names a nonterminal without productions. -/
  | undefined (production : Nat) (rule : Rule)
  /-- No entry point reaches the nonterminal. -/
  | unreachable (rule : Rule)
deriving DecidableEq, Repr

def Issue.message : Issue → String
  | .undefined production rule => s!"production #{production} uses undefined nonterminal {rule.name}"
  | .unreachable rule => s!"nonterminal {rule.name} is unreachable"

def undefinedIssues (grammar : Grammar) : List Issue :=
  grammar.table.zipIdx.flatMap fun (production, id) =>
    ((Saturation.rulesOf production.rhs).filter fun rule =>
      (grammar.alternatives rule).isEmpty).map (.undefined id)

def unreachableIssues (grammar : Grammar) : List Issue :=
  let reached := Entry.all.flatMap fun entry => grammar.reachable entry.rule
  (Rule.all.filter fun rule => rule ∉ reached).map .unreachable

/-- Every defect of the table; there is none in a valid grammar. -/
def issues (grammar : Grammar) : List Issue :=
  grammar.undefinedIssues ++ grammar.unreachableIssues

/-- A number in at least four places, blanks before it. -/
def rightAligned (n : Nat) : String :=
  let digits := toString n
  String.ofList (List.replicate (4 - digits.length) ' ') ++ digits

/-- The whole table, one line for each nonterminal and one for each production. -/
def report (grammar : Grammar) : String :=
  String.join <| Rule.all.map fun rule =>
    let mark := if grammar.isNullable rule then " (nullable)" else ""
    let lines := (grammar.alternatives rule).map fun id =>
      "  " ++ rightAligned id ++ "  " ++
        ((grammar.production? id).map Production.display).getD "" ++ "\n"
    rule.name ++ mark ++ "\n" ++ String.join lines

end Grammar

end SpokenKeys
