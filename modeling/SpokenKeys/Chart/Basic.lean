import SpokenKeys.Chart.Item
import SpokenKeys.Grammar.Basic
import SpokenKeys.Limits

/-!
The chart of a token list: one item set for every position between tokens. The
item sets are closed under prediction, scanning and completion in one pass each;
a nonterminal that derives the empty string is passed over when it is predicted,
so that no completion at its own position is missed.
-/

namespace SpokenKeys

namespace Chart

/-- Why a token list has no chart, or a chart no derivation. -/
inductive Failure where
  /-- No derivation goes on through the token at the position. -/
  | rejected (position : Nat)
  | tooLarge (items : Nat)
  | tooDeep (depth : Nat)
  /-- A span is derivable by the chart's account, but its parts are not there. -/
  | inconsistent (rule : Rule) (start stop : Nat)
deriving DecidableEq, Repr

def nextSymbol? (grammar : Grammar) (item : Item) : Option Symbol := do
  let production ← grammar.production? item.production
  production.rhs[item.dot]?

/-- Fresh items for every alternative of a nonterminal. -/
def predict (grammar : Grammar) (rule : Rule) (position : Nat) : List Item :=
  (grammar.alternatives rule).map fun production => ⟨production, 0, position⟩

/-- The items of a set that wait for a nonterminal, moved past it. -/
def complete (grammar : Grammar) (set : ItemSet) (rule : Rule) : List Item :=
  let waits (item : Item) : Bool := nextSymbol? grammar item == some (.rule rule)
  (set.items.toList.filter waits).map Item.advance

/-- What an item of the set at a position calls for: items of the same set, and
items of the next one. The origin set is the one of the item's origin as far as
it is known, and the token is the one after the position. -/
def consequences (grammar : Grammar) (token? : Option Token) (position : Nat)
    (origin : ItemSet) (item : Item) : List Item × List Item :=
  match grammar.production? item.production with
  | none => ([], [])
  | some production =>
      match production.rhs[item.dot]? with
      | none => (complete grammar origin production.lhs, [])
      | some (.rule rule) =>
          let fresh := predict grammar rule position
          (if grammar.isNullable rule then fresh ++ [item.advance] else fresh, [])
      | some (.terminal label) =>
          match token? with
          | some token => ([], if token.matchesLabel label then [item.advance] else [])
          | none => ([], [])

/-- Goes through the items of the current set from an index on, adding what they
call for to the end of this set and to the next one. The first argument bounds
the number of items still to come. -/
def close (grammar : Grammar) (token? : Option Token) (position : Nat)
    (earlier : Array ItemSet) : Nat → Nat → ItemSet → ItemSet → ItemSet × ItemSet
  | 0, _, current, next => (current, next)
  | fuel + 1, index, current, next =>
      match current.items[index]? with
      | none => (current, next)
      | some item =>
          let origin := earlier.getD item.origin current
          let (here, there) := consequences grammar token? position origin item
          close grammar token? position earlier fuel (index + 1)
            (current.insertAll here) (next.insertAll there)

/-- Number of places that a mark can have in several productions. -/
def markCount : List Production → Nat
  | [] => 0
  | production :: rest => production.length + 1 + markCount rest

/-- Number of items that the set at a position can hold: every mark in every
production from every origin up to the position. -/
def itemBound (grammar : Grammar) (position : Nat) : Nat :=
  markCount grammar.table * (position + 1)

/-- The closed set at a position and the beginning of the next one. -/
def closeSet (grammar : Grammar) (token? : Option Token) (position : Nat)
    (earlier : Array ItemSet) (current : ItemSet) : ItemSet × ItemSet :=
  close grammar token? position earlier (itemBound grammar position + 1) 0 current ∅

/-- The sets of all positions, from the earlier ones and the beginning of the
current one. The total counts the items of the earlier sets. -/
def buildSets (grammar : Grammar) :
    List Token → Array ItemSet → ItemSet → Nat → Except Failure (Array ItemSet)
  | [], earlier, current, total =>
      let (current, _) := closeSet grammar none earlier.size earlier current
      let total := total + current.size
      if Limits.chartItems < total then .error (.tooLarge total)
      else .ok (earlier.push current)
  | token :: rest, earlier, current, total =>
      let (current, next) := closeSet grammar (some token) earlier.size earlier current
      let total := total + current.size
      if Limits.chartItems < total then .error (.tooLarge total)
      else if next.isEmpty then .error (.rejected earlier.size)
      else buildSets grammar rest (earlier.push current) next total

end Chart

/-- The item sets of a token list for a start symbol. -/
structure Chart where
  grammar : Grammar
  start : Rule
  sets : Array ItemSet
  tokenCount : Nat

namespace Chart

def contains (chart : Chart) (position : Nat) (item : Item) : Bool :=
  match chart.sets[position]? with
  | some set => set.contains item
  | none => false

def itemCount (chart : Chart) : Nat :=
  chart.sets.foldl (fun total set => total + set.size) 0

/-- The alternatives of a nonterminal that derive a span, in the order they are
declared. -/
def completed (chart : Chart) (rule : Rule) (start stop : Nat) : List Nat :=
  (chart.grammar.alternatives rule).filter fun id =>
    match chart.grammar.production? id with
    | some production => chart.contains stop ⟨id, production.length, start⟩
    | none => false

/-- Whether the start symbol derives the whole token list. -/
def isAccepted (chart : Chart) : Bool :=
  !(chart.completed chart.start 0 chart.tokenCount).isEmpty

/-- The chart of a token list. A list is rejected at the first token that no
item scans, or at its last token if every token was scanned but the start
symbol is not complete. -/
def build (grammar : Grammar) (start : Rule) (tokens : List Token) : Except Failure Chart := do
  let first := (∅ : ItemSet).insertAll (predict grammar start 0)
  let sets ← buildSets grammar tokens #[] first 0
  let chart : Chart := ⟨grammar, start, sets, tokens.length⟩
  if chart.isAccepted then .ok chart else .error (.rejected (tokens.length - 1))

/-- The chart in short. -/
def describe (chart : Chart) : String :=
  s!"Chart \x7b start: {chart.start.title}, token_count: {chart.tokenCount}, items: {chart.itemCount} \x7d"

end Chart

end SpokenKeys
