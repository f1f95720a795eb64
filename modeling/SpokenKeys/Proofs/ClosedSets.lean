import Mathlib.Order.Bounds.Basic
import SpokenKeys.Proofs.GenuineDerivation

/-!
One pass over each set is enough. Wherever the loop over the positions comes to, the sets
so far are the least ones that begin with the start symbol and are closed under
prediction, scanning and completion, although completion at a set's own position looks
only at the items that are there already. The states of the loop are told by rules, so
that this is said of charts that are refused as well.
-/

namespace SpokenKeys.Chart

variable {grammar : Grammar} {start : Rule} {labels : List String} {tokens : List Token}
  {token? : Option Token} {position last index : Nat} {item : Item} {earlier sets : Array ItemSet}
  {current next : ItemSet}

/-- Items of all positions that are closed up to one of them: the alternatives of the
start symbol are there, and whatever an item calls for. -/
structure ClosedUpTo (grammar : Grammar) (start : Rule) (labels : List String) (last : Nat)
    (family : Nat → Set Item) : Prop where
  start : ∀ id ∈ grammar.alternatives start, ⟨id, 0, 0⟩ ∈ family 0
  predict : ∀ position ≤ last, ∀ item ∈ family position, ∀ rule,
    nextSymbol? grammar item = some (.rule rule) →
    ∀ id ∈ grammar.alternatives rule, ⟨id, 0, position⟩ ∈ family position
  scan : ∀ position < last, ∀ item ∈ family position, ∀ label,
    nextSymbol? grammar item = some (.terminal label) → labels[position]? = some label →
    item.advance ∈ family (position + 1)
  complete : ∀ position ≤ last, ∀ done ∈ family position, ∀ production,
    grammar.production? done.production = some production → done.dot = production.length →
    ∀ waiting ∈ family done.origin, nextSymbol? grammar waiting = some (.rule production.lhs) →
    waiting.advance ∈ family position

/-- The items of the sets, by their positions. -/
def itemsAt (sets : Array ItemSet) (position : Nat) : Set Item :=
  {item | ∃ set, sets[position]? = some set ∧ item ∈ set.items}

theorem mem_itemsAt (hexact : AllExact grammar start labels sets)
    (hposition : position < sets.size) :
    item ∈ itemsAt sets position ↔ Reached grammar start labels position item := by
  have hset : sets[position]? = some sets[position] := Array.getElem?_eq_getElem hposition
  rw [← (hexact position _ hset).2 item]
  constructor
  · rintro ⟨set, hother, hitem⟩
    rw [hset] at hother
    cases hother
    exact hitem
  · intro hitem
    exact ⟨_, hset, hitem⟩

theorem closedUpTo_itemsAt (hexact : AllExact grammar start labels sets)
    (hsize : sets.size = last + 1) : ClosedUpTo grammar start labels last (itemsAt sets) := by
  have hmem : ∀ {position item}, position ≤ last →
      (item ∈ itemsAt sets position ↔ Reached grammar start labels position item) :=
    fun hle => mem_itemsAt hexact (by omega)
  refine ⟨fun id hid => ?_, fun position hle item hitem rule hnext id hid => ?_,
    fun position hlt item hitem label hnext hlabel => ?_,
    fun position hle done hdone production hproduction hdot waiting hwaiting hnext => ?_⟩
  · exact (hmem (Nat.zero_le _)).mpr (.start hid)
  · exact (hmem hle).mpr (((hmem hle).mp hitem).predict hnext hid)
  · exact (hmem hlt).mpr (((hmem (Nat.le_of_lt hlt)).mp hitem).scan hnext hlabel)
  · have hreached := (hmem hle).mp hdone
    have horigin := hreached.origin_le.trans hle
    exact (hmem hle).mpr
      (hreached.complete hproduction hdot ((hmem horigin).mp hwaiting) hnext)

/-- What is reached is in every closed family. -/
theorem Reached.mem_of_closedUpTo {family : Nat → Set Item}
    (h : Reached grammar start labels position item)
    (hclosed : ClosedUpTo grammar start labels last family) (hle : position ≤ last) :
    item ∈ family position := by
  induction h with
  | start hid => exact hclosed.start _ hid
  | predict _ hnext hid ih => exact hclosed.predict _ hle _ (ih hle) _ hnext _ hid
  | scan _ hnext hlabel ih => exact hclosed.scan _ hle _ (ih (Nat.le_of_succ_le hle)) _ hnext hlabel
  | complete hdone hproduction hdot _ hnext ihdone ihwaiting =>
      exact hclosed.complete _ hle _ (ihdone hle) _ hproduction hdot _
        (ihwaiting (hdone.origin_le.trans hle)) hnext

/-- Sets that hold what is reached are the least closed ones. -/
theorem isLeast_itemsAt (hexact : AllExact grammar start labels sets)
    (hsize : sets.size = last + 1) :
    IsLeast {family | ClosedUpTo grammar start labels last family} (itemsAt sets) := by
  refine ⟨closedUpTo_itemsAt hexact hsize, fun family hclosed position item hitem => ?_⟩
  obtain ⟨set, hset, hmem⟩ := hitem
  have hlt := (Array.getElem?_eq_some_iff.mp hset).1
  exact (((hexact position set hset).2 item).mp hmem).mem_of_closedUpTo hclosed (by omega)

/-- Going through the items of a set from an index on, to the end of a list that grows
meanwhile, and the two sets that this leaves. The number of items is not bounded. -/
inductive Finishes (grammar : Grammar) (token? : Option Token) (position : Nat)
    (earlier : Array ItemSet) : Nat → ItemSet → ItemSet → ItemSet × ItemSet → Prop where
  | stop {index : Nat} {current next : ItemSet} :
      current.items[index]? = none →
      Finishes grammar token? position earlier index current next (current, next)
  | step {index : Nat} {current next : ItemSet} {item : Item} {result : ItemSet × ItemSet} :
      current.items[index]? = some item →
      Finishes grammar token? position earlier (index + 1)
        (current.insertAll (consequences grammar token? position
          (earlier.getD item.origin current) item).1)
        (next.insertAll (consequences grammar token? position
          (earlier.getD item.origin current) item).2) result →
      Finishes grammar token? position earlier index current next result

/-- A bound that the items stay below is not what ends the loop. -/
theorem finishes_close (fuel : Nat) (hsize :
    (close grammar token? position earlier fuel index current next).1.size ≤ index + fuel) :
    Finishes grammar token? position earlier index current next
      (close grammar token? position earlier fuel index current next) := by
  induction fuel generalizing index current next with
  | zero => exact .stop (Array.getElem?_eq_none_iff.mpr hsize)
  | succ fuel ih =>
      cases hitem : current.items[index]? with
      | none =>
          simp only [close, hitem]
          exact .stop hitem
      | some item =>
          simp only [close, hitem] at hsize ⊢
          exact .step hitem (ih (by omega))

/-- The closed set of the next position and the beginning of the one after it. -/
def closing (grammar : Grammar) (tokens : List Token) (earlier : Array ItemSet)
    (current : ItemSet) : ItemSet × ItemSet :=
  closeSet grammar tokens[earlier.size]? earlier.size earlier current

/-- The loop over the positions comes to a position with the closed sets before it and the
beginning of its own: it goes on while there are tokens, the sets are not too large, and
the token was scanned. -/
inductive ComesTo (grammar : Grammar) (start : Rule) (tokens : List Token) :
    Array ItemSet → ItemSet → Prop where
  | first : ComesTo grammar start tokens #[] ((∅ : ItemSet).insertAll (predict grammar start 0))
  | next {earlier : Array ItemSet} {current : ItemSet} :
      ComesTo grammar start tokens earlier current →
      earlier.size < tokens.length →
      totalSize (earlier.push (closing grammar tokens earlier current).1) ≤ Limits.chartItems →
      (closing grammar tokens earlier current).2.isEmpty = false →
      ComesTo grammar start tokens (earlier.push (closing grammar tokens earlier current).1)
        (closing grammar tokens earlier current).2

namespace ComesTo

theorem size_le (h : ComesTo grammar start tokens earlier current) :
    earlier.size ≤ tokens.length := by
  cases h with
  | first => exact Nat.zero_le _
  | next _ hlt => rwa [Array.size_push]

theorem token_kind (earlier : Array ItemSet) (tokens : List Token) :
    tokens[earlier.size]?.map Token.kind = (tokens.map Token.kind)[earlier.size]? :=
  List.getElem?_map.symm

/-- What the loop keeps: the earlier sets hold what is reached, and the current one has
everything that the token before it calls for. -/
theorem exact (h : ComesTo grammar start tokens earlier current) :
    AllExact grammar start (tokens.map Token.kind) earlier ∧
      Seeded grammar start (tokens.map Token.kind) earlier.size current := by
  induction h with
  | first =>
      refine ⟨fun position set hset => ?_, seeded_start grammar start _⟩
      cases hset
  | @next earlier current _ _ _ _ ih =>
      obtain ⟨hclosed, hafter⟩ := closeSet_exact ih.1 rfl (token_kind earlier tokens) ih.2
      refine ⟨allExact_push ih.1 hclosed, ?_⟩
      rw [Array.size_push]
      exact hafter

theorem closing_exact (h : ComesTo grammar start tokens earlier current) :
    Exact grammar start (tokens.map Token.kind) earlier.size
      (closing grammar tokens earlier current).1 :=
  (closeSet_exact h.exact.1 rfl (token_kind earlier tokens) h.exact.2).1

theorem finishes (h : ComesTo grammar start tokens earlier current) :
    Finishes grammar tokens[earlier.size]? earlier.size earlier 0 current ∅
      (closing grammar tokens earlier current) := by
  obtain ⟨hnodup, hmem⟩ := h.closing_exact
  have hbound := length_le_itemBound hnodup fun item hitem =>
    ((hmem item).mp (Array.mem_toList_iff.mp hitem)).holds
  refine finishes_close _ ?_
  rw [Nat.zero_add]
  exact Nat.le_succ_of_le hbound

/-- From any position the loop goes on until it ends, in one of three ways. -/
theorem exists_end (h : ComesTo grammar start tokens earlier current) (rest : List Token)
    (hrest : tokens.drop earlier.size = rest) :
    ∃ earlier' current', ComesTo grammar start tokens earlier' current' ∧
      let closed := closing grammar tokens earlier' current'
      let sets := earlier'.push closed.1
      let result := buildSets grammar rest earlier current (totalSize earlier)
      (Limits.chartItems < totalSize sets ∧ result = .error (.tooLarge (totalSize sets))) ∨
      (earlier'.size < tokens.length ∧ closed.2.isEmpty = true ∧
        result = .error (.rejected earlier'.size)) ∨
      (earlier'.size = tokens.length ∧ result = .ok sets) := by
  induction rest generalizing earlier current with
  | nil =>
      have hend : earlier.size = tokens.length :=
        Nat.le_antisymm h.size_le (List.drop_eq_nil_iff.mp hrest)
      have hnone : tokens[earlier.size]? = none := List.getElem?_eq_none (Nat.le_of_eq hend.symm)
      refine ⟨earlier, current, h, ?_⟩
      simp only [buildSets, closing, hnone, ← totalSize_push]
      split
      next hlarge => exact .inl ⟨hlarge, rfl⟩
      next => exact .inr (.inr ⟨hend, rfl⟩)
  | cons token rest ih =>
      have htoken : tokens[earlier.size]? = some token := by
        rw [← List.head?_drop, hrest]
        rfl
      have hlt := (List.getElem?_eq_some_iff.mp htoken).1
      have hclosing : closing grammar tokens earlier current =
          closeSet grammar (some token) earlier.size earlier current := by rw [closing, htoken]
      simp only [buildSets, ← hclosing, ← totalSize_push]
      by_cases hlarge :
          Limits.chartItems < totalSize (earlier.push (closing grammar tokens earlier current).1)
      · simp only [if_pos hlarge]
        exact ⟨earlier, current, h, .inl ⟨hlarge, rfl⟩⟩
      by_cases hempty : (closing grammar tokens earlier current).2.isEmpty = true
      · simp only [if_neg hlarge, if_pos hempty]
        exact ⟨earlier, current, h, .inr (.inl ⟨hlt, hempty, rfl⟩)⟩
      -- The loop goes on, with one closed set more and one token less.
      simp only [if_neg hlarge, if_neg hempty]
      refine ih (h.next hlt (Nat.not_lt.mp hlarge) (Bool.not_eq_true _ ▸ hempty)) ?_
      rw [Array.size_push, ← List.drop_drop, hrest]
      rfl

end ComesTo

/-- One pass over each set is enough, whatever the table, the start symbol and the
tokens. Wherever the loop comes to, going through the set of the position ends, and the
sets up to it are then the least ones that have the alternatives of the start symbol and
are closed under prediction, scanning and completion, each item once; and what an item
says of the tokens from its origin is so. The chart that is built, or the refusal, comes
from the sets at the last of these positions. -/
theorem one_pass_closes_sets (table : List Production) (start : Rule) (tokens : List Token) :
    let grammar := Grammar.ofProductions table
    let labels := tokens.map Token.kind
    (∀ earlier current, ComesTo grammar start tokens earlier current →
      let position := earlier.size
      let closed := closing grammar tokens earlier current
      let sets := earlier.push closed.1
      Finishes grammar tokens[position]? position earlier 0 current ∅ closed ∧
        IsLeast {family | ClosedUpTo grammar start labels position family} (itemsAt sets) ∧
        ∀ place set, sets[place]? = some set →
          set.items.toList.Nodup ∧ ∀ item ∈ set.items,
            item.origin ≤ place ∧ ∃ production, table[item.production]? = some production ∧
              item.dot ≤ production.length ∧
              Derives table (production.rhs.take item.dot) (span labels item.origin place)) ∧
    ∃ earlier current, ComesTo grammar start tokens earlier current ∧
      let closed := closing grammar tokens earlier current
      let sets := earlier.push closed.1
      let chart : Chart := ⟨grammar, start, sets, tokens.length⟩
      (Limits.chartItems < totalSize sets ∧
        build grammar start tokens = .error (.tooLarge (totalSize sets))) ∨
      (earlier.size < tokens.length ∧ closed.2.isEmpty = true ∧
        build grammar start tokens = .error (.rejected earlier.size)) ∨
      (earlier.size = tokens.length ∧ build grammar start tokens =
        if chart.isAccepted then .ok chart else .error (.rejected (tokens.length - 1))) := by
  intro grammar labels
  refine ⟨fun earlier current h => ?_, ?_⟩
  · have hexact := allExact_push h.exact.1 h.closing_exact
    refine ⟨h.finishes, isLeast_itemsAt hexact (Array.size_push ..), fun place set hset => ?_⟩
    obtain ⟨hnodup, hmem⟩ := hexact place set hset
    refine ⟨hnodup, fun item hitem => ?_⟩
    obtain ⟨horigin, -, production, hproduction, hdot, hderives⟩ := ((hmem item).mp hitem).holds
    rw [Grammar.production?_eq, Grammar.table_ofProductions] at hproduction
    rw [Grammar.table_ofProductions] at hderives
    exact ⟨horigin, production, hproduction, hdot, hderives⟩
  · have hfirst : ComesTo grammar start tokens #[] _ := .first
    have hbuild : ∀ {result}, buildSets grammar tokens #[] _ (totalSize #[]) = result →
        build grammar start tokens = result.bind fun sets =>
          let chart : Chart := ⟨grammar, start, sets, tokens.length⟩
          if chart.isAccepted then .ok chart else .error (.rejected (tokens.length - 1)) :=
      fun h => h ▸ rfl
    obtain ⟨earlier, current, h, hends⟩ := hfirst.exists_end tokens rfl
    refine ⟨earlier, current, h, ?_⟩
    rcases hends with ⟨hlarge, hresult⟩ | ⟨hlt, hempty, hresult⟩ | ⟨hend, hresult⟩
    · exact .inl ⟨hlarge, hbuild hresult⟩
    · exact .inr (.inl ⟨hlt, hempty, hbuild hresult⟩)
    · exact .inr (.inr ⟨hend, hbuild hresult⟩)

/-- A count that derives nothing is completed in the set where it is predicted, and one
that recurs on the left is scanned; one pass over the second set closes it too. -/
theorem one_pass_closes_counting_sets :
    let grammar := Grammar.ofProductions countingTable
    let tokens := [Token.ofWord "two" 0, .ofWord "up" 1]
    let first := closing grammar tokens #[] ((∅ : ItemSet).insertAll (predict grammar .commands 0))
    let second := closing grammar tokens #[first.1] first.2
    ComesTo grammar .commands tokens #[first.1] first.2 ∧
      Finishes grammar tokens[1]? 1 #[first.1] 0 first.2 ∅ second ∧
      IsLeast {family | ClosedUpTo grammar .commands (tokens.map Token.kind) 1 family}
        (itemsAt #[first.1, second.1]) := by
  intro grammar tokens first second
  have h : ComesTo grammar .commands tokens #[first.1] first.2 :=
    .next .first (by decide) (by decide +kernel) (by decide +kernel)
  have hsets := (one_pass_closes_sets countingTable .commands tokens).1 _ _ h
  exact ⟨h, hsets.1, hsets.2.1⟩

end SpokenKeys.Chart
