import Mathlib.Algebra.GroupWithZero.Nat
import Mathlib.Algebra.Order.BigOperators.Group.List
import Mathlib.Algebra.Order.Group.Nat
import Mathlib.Data.List.Sigma
import SpokenKeys.Proofs.Extraction

/-!
How many items a chart can hold. The symbols before the mark of an item derive
the labels from its origin, so the label at the origin tells which marks are
possible there, and where phrases have a longest one, also at how few positions
they can end. Of complete items only the nonterminal counts, since one of its
alternatives at most derives given labels.
-/

namespace SpokenKeys

/-- What bounds the spans of items: nonterminals that are called for by nothing
but the start, and how long the phrases of the others can be. -/
structure Frame where
  rooted : Rule → Bool
  /-- No phrase is longer, if there is a limit. -/
  longest : Rule → Option Nat

namespace Frame

/-- How long the phrases of several symbols one after the other can be. -/
def longestOf (frame : Frame) : List Symbol → Option Nat
  | [] => some 0
  | .terminal _ :: rest => (longestOf frame rest).map (1 + ·)
  | .rule rule :: rest =>
      (frame.longest rule).bind fun limit => (longestOf frame rest).map (limit + ·)

def isInner (frame : Frame) : Symbol → Bool
  | .terminal _ => true
  | .rule rule => !frame.rooted rule

/-- Whether the right-hand side of a production stays within the limit of the
left-hand side. -/
def keepsLimit (frame : Frame) (production : Production) : Bool :=
  match frame.longest production.lhs with
  | none => true
  | some limit => (frame.longestOf production.rhs).any fun length => decide (length ≤ limit)

/-- Whether a production is as claimed. Unless its left-hand side is rooted, its
first symbol takes a label. -/
def admits (frame : Frame) (outline : Outline) (production : Production) : Bool :=
  frame.keepsLimit production && production.rhs.all frame.isInner &&
    (frame.rooted production.lhs || production.rhs.isEmpty ||
      outline.shortestOf (production.rhs.take 1) != 0)

end Frame

/-- What an item is about: a production at its beginning, some of its symbols,
or all of a nonterminal. -/
inductive Slot where
  | fresh (id : Nat)
  | part (id dot : Nat)
  | whole (rule : Rule)
deriving DecidableEq

/-- A slot of items whose marks are behind some symbols. -/
structure Extent where
  slot : Slot
  lhs : Rule
  symbols : List Symbol

/-- Every slot of a table that has symbols before the mark. -/
def extents (table : List Production) : List Extent :=
  (table.zipIdx.flatMap fun (production, id) =>
    (List.range' 1 (production.length - 1)).map fun dot =>
      ⟨.part id dot, production.lhs, production.rhs.take dot⟩) ++
    Rule.all.map fun rule => ⟨.whole rule, rule, [.rule rule]⟩

namespace Frame

def rootedExtents (frame : Frame) (table : List Production) : List Extent :=
  (extents table).filter fun extent => frame.rooted extent.lhs

/-- The other extents that begin with a label. -/
def extentsFrom (frame : Frame) (outline : Outline) (table : List Production)
    (label? : Option String) : List Extent :=
  (extents table).filter fun extent =>
    !frame.rooted extent.lhs &&
      label?.any fun label => (outline.firstOf extent.symbols).contains label

/-- Number of positions that an extent can end at when some are left. -/
def ends (frame : Frame) (rest : Nat) (extent : Extent) : Nat :=
  (frame.longestOf extent.symbols).getD rest

/-- The cells of a place: slots with an origin and a position. Fresh items stay
where they begin, rooted ones begin at the front, and the others begin with the
label of the place. -/
def cellsAt (frame : Frame) (outline : Outline) (table : List Production)
    (label? : Option String) (capacity place : Nat) : List (Slot × Nat × Nat) :=
  (List.range table.length).map (fun id => (.fresh id, place, place)) ++
    (frame.rootedExtents table).map (fun extent => (extent.slot, 0, place)) ++
    (frame.extentsFrom outline table label?).flatMap fun extent =>
      (List.range (frame.ends (capacity - place) extent)).map fun width =>
        (extent.slot, place, place + (width + 1))

/-- The cells that the items of a chart can be in. -/
def cells (frame : Frame) (outline : Outline) (table : List Production) (labels : List String)
    (capacity : Nat) : List (Slot × Nat × Nat) :=
  (List.range (capacity + 1)).flatMap fun place =>
    frame.cellsAt outline table labels[place]? capacity place

variable {frame : Frame} {outline : Outline} {table : List Production} {symbols : List Symbol}
  {labels : List String} {capacity : Nat}

theorem admits_iff {production : Production} :
    frame.admits outline production = true ↔
      frame.keepsLimit production = true ∧ production.rhs.all frame.isInner = true ∧
        (frame.rooted production.lhs = true ∨ production.rhs = [] ∨
          outline.shortestOf (production.rhs.take 1) ≠ 0) := by
  simp [admits, and_assoc, or_assoc]

theorem length_le (hframe : ∀ production ∈ table, frame.admits outline production = true)
    (h : Derives table symbols labels) {limit : Nat}
    (hlimit : frame.longestOf symbols = some limit) : labels.length ≤ limit := by
  induction h generalizing limit with
  | nil => exact Nat.zero_le _
  | terminal _ ih =>
      obtain ⟨rest, hrest, rfl⟩ := Option.map_eq_some_iff.mp hlimit
      have hle := ih hrest
      rw [List.length_cons]
      omega
  | rule hmem _ _ ihinner ihrest =>
      obtain ⟨most, hmost, hlimit⟩ := Option.bind_eq_some_iff.mp hlimit
      obtain ⟨rest, hrest, rfl⟩ := Option.map_eq_some_iff.mp hlimit
      have hkeeps := (admits_iff.mp (hframe _ hmem)).1
      rw [keepsLimit, hmost] at hkeeps
      obtain ⟨length, hlength, hle⟩ := (Option.any_eq_true _ _).mp hkeeps
      have hinner := ihinner hlength
      have hafter := ihrest hrest
      have hle := of_decide_eq_true hle
      rw [List.length_append]
      omega

end Frame

namespace Frame

def unlimited (frame : Frame) (found : List Extent) : Nat :=
  found.countP fun extent => (frame.longestOf extent.symbols).isNone

/-- Each extent without a limit can end wherever some position is left. -/
theorem sum_ends (frame : Frame) (rest : Nat) (found : List Extent) :
    (found.map (frame.ends rest)).sum =
      frame.unlimited found * rest + (found.map (frame.ends 0)).sum := by
  induction found with
  | nil => simp [unlimited]
  | cons extent found ih =>
      rw [unlimited] at ih ⊢
      cases hlimit : frame.longestOf extent.symbols with
      | none => simp [ih, ends, hlimit, Nat.add_mul]; omega
      | some limit => simp [ih, ends, hlimit]; omega

theorem length_cells_le {frame : Frame} {outline : Outline} {table : List Production}
    {column : Nat → Nat}
    (hcolumn : ∀ label? rest,
      ((frame.extentsFrom outline table label?).map (frame.ends rest)).sum ≤ column rest)
    (labels : List String) (capacity : Nat) :
    (frame.cells outline table labels capacity).length ≤
      ((List.range (capacity + 1)).map fun place =>
        table.length + (frame.rootedExtents table).length + column (capacity - place)).sum := by
  rw [cells, List.length_flatMap]
  refine List.sum_le_sum fun place _ => ?_
  have hle := hcolumn labels[place]? (capacity - place)
  simp only [cellsAt, List.length_append, List.length_map, List.length_range,
    List.length_flatMap]
  exact Nat.add_le_add_left hle _

end Frame

theorem mem_extents_part {table : List Production} {production : Production} {id dot : Nat}
    (hproduction : table[id]? = some production) (hpos : 0 < dot) (hlt : dot < production.length) :
    ⟨.part id dot, production.lhs, production.rhs.take dot⟩ ∈ extents table := by
  refine List.mem_append_left _ (List.mem_flatMap.mpr
    ⟨(production, id), List.mem_zipIdx_iff_getElem?.mpr hproduction, ?_⟩)
  exact List.mem_map.mpr ⟨dot, List.mem_range'_1.mpr (by omega), rfl⟩

theorem mem_extents_whole (table : List Production) (rule : Rule) :
    ⟨.whole rule, rule, [.rule rule]⟩ ∈ extents table :=
  List.mem_append_right _ (List.mem_map_of_mem (Rule.mem_all rule))

namespace Chart

variable {grammar : Grammar} {start : Rule} {labels : List String} {position : Nat} {item : Item}
  {production : Production} {frame : Frame} {outline : Outline} {sets : Array ItemSet}

def slotOf (grammar : Grammar) (item : Item) : Slot :=
  match grammar.production? item.production with
  | none => .fresh item.production
  | some production =>
      if item.dot = 0 then .fresh item.production
      else if item.dot = production.length then .whole production.lhs
      else .part item.production item.dot

def cellOf (grammar : Grammar) (position : Nat) (item : Item) : Slot × Nat × Nat :=
  (slotOf grammar item, item.origin, position)

theorem slotOf_cases (hproduction : grammar.production? item.production = some production) :
    item.dot = 0 ∧ slotOf grammar item = .fresh item.production ∨
      item.dot = production.length ∧ slotOf grammar item = .whole production.lhs ∨
      item.dot ≠ production.length ∧ slotOf grammar item = .part item.production item.dot := by
  rw [slotOf, hproduction]
  dsimp only
  split
  next hzero => exact .inl ⟨hzero, rfl⟩
  next =>
    split
    next hlength => exact .inr (.inl ⟨hlength, rfl⟩)
    next hlength => exact .inr (.inr ⟨hlength, rfl⟩)

/-- At one position, reached items with one cell are the same. -/
theorem cellOf_injective (hfits : outline.Fits grammar.table) {other : Item}
    (hitem : Reached grammar start labels position item)
    (hother : Reached grammar start labels position other)
    (h : cellOf grammar position item = cellOf grammar position other) : item = other := by
  obtain ⟨-, -, production, hproduction, -⟩ := hitem.holds
  obtain ⟨-, -, production', hproduction', -⟩ := hother.holds
  obtain ⟨hslot, hplace⟩ := Prod.mk.inj h
  have horigin := (Prod.mk.inj hplace).1
  have hequal : item.production = other.production → item.dot = other.dot → item = other := by
    intro hid hdot
    cases item
    cases other
    simp_all
  -- Slots of different kinds are different, which leaves three of the cases.
  rcases slotOf_cases hproduction with ⟨hdot, hs⟩ | ⟨hdot, hs⟩ | ⟨-, hs⟩ <;>
    rcases slotOf_cases hproduction' with ⟨hdot', hs'⟩ | ⟨hdot', hs'⟩ | ⟨-, hs'⟩ <;>
    rw [hs, hs'] at hslot <;> try contradiction
  · exact hequal (Slot.fresh.inj hslot) (hdot.trans hdot'.symm)
  · have hderives := hitem.holds.derives_rhs hproduction hdot
    have hderives' := hother.holds.derives_rhs hproduction' hdot'
    rw [← horigin] at hderives'
    rw [Grammar.production?_eq] at hproduction hproduction'
    have hid := hfits.alternative_unique hproduction hproduction' (Slot.whole.inj hslot)
      hderives hderives'
    rw [hid] at hproduction
    obtain rfl : production = production' := Option.some.inj (hproduction.symm.trans hproduction')
    exact hequal hid (hdot.trans hdot'.symm)
  · obtain ⟨hid, hdot⟩ := Slot.part.inj hslot
    exact hequal hid hdot

/-- What is reached of a rooted nonterminal begins at the front. -/
theorem Reached.origin_eq_zero
    (hframe : ∀ production ∈ grammar.table, frame.admits outline production = true)
    (h : Reached grammar start labels position item)
    (hproduction : grammar.production? item.production = some production)
    (hrooted : frame.rooted production.lhs = true) : item.origin = 0 := by
  induction h with
  | start => rfl
  | @predict position id item rule _ hnext hid _ =>
      obtain rfl := Grammar.lhs_of_mem_alternatives hid hproduction
      obtain ⟨caller, hcaller, hsymbol⟩ := nextSymbol?_eq_some.mp hnext
      have hinner := (Frame.admits_iff.mp
        (hframe caller (Grammar.mem_table_of_production? hcaller))).2.1
      have hnot := List.all_eq_true.mp hinner _ (List.mem_of_getElem? hsymbol)
      rw [Frame.isInner, hrooted] at hnot
      cases hnot
  | scan _ _ _ ih => exact ih hproduction
  | complete _ _ _ _ _ _ ihwaiting => exact ihwaiting hproduction

/-- An item past some symbols has an extent, which derives its span. -/
theorem Holds.exists_extent (h : Holds grammar labels position item)
    (hproduction : grammar.production? item.production = some production) (hdot : item.dot ≠ 0) :
    ∃ extent ∈ extents grammar.table, extent.slot = slotOf grammar item ∧
      extent.lhs = production.lhs ∧
      Derives grammar.table extent.symbols (span labels item.origin position) := by
  rcases slotOf_cases hproduction with ⟨hzero, -⟩ | ⟨hlength, hslot⟩ | ⟨hlength, hslot⟩
  · exact absurd hzero hdot
  · exact ⟨_, mem_extents_whole grammar.table production.lhs, hslot.symm, rfl,
      h.derives_lhs hproduction hlength⟩
  · obtain ⟨hle, hfront⟩ := h.of_production hproduction
    rw [Grammar.production?_eq] at hproduction
    exact ⟨_, mem_extents_part hproduction (by omega) (by omega), hslot.symm, rfl, hfront⟩

/-- The first symbol of a production that is not rooted takes a label. -/
theorem Holds.origin_lt (hfits : outline.Fits grammar.table)
    (hframe : ∀ production ∈ grammar.table, frame.admits outline production = true)
    (h : Holds grammar labels position item)
    (hproduction : grammar.production? item.production = some production) (hdot : item.dot ≠ 0)
    (hinner : frame.rooted production.lhs = false) : item.origin < position := by
  obtain ⟨hle, hfront⟩ := h.of_production hproduction
  have hadmits := (Frame.admits_iff.mp
    (hframe production (Grammar.mem_table_of_production? hproduction))).2.2
  rw [hinner] at hadmits
  rcases hadmits with hrooted | hempty | hshort
  · cases hrooted
  · rw [Production.length, hempty] at hle
    exact absurd (Nat.le_zero.mp hle) hdot
  · have htake : production.rhs.take item.dot =
        production.rhs.take 1 ++ (production.rhs.drop 1).take (item.dot - 1) := by
      rw [← List.take_add]
      congr 1
      omega
    have hle := hfits.shortestOf_le hfront
    rw [htake, Outline.shortestOf_append, span_length] at hle
    omega

/-- An item past some symbols of a production that is not rooted is in a cell of
its origin: the label there is one that the extent begins with, and the position
is no further than its phrases go. -/
theorem Holds.cellOf_mem_cellsAt (hfits : outline.Fits grammar.table)
    (hframe : ∀ production ∈ grammar.table, frame.admits outline production = true)
    {capacity : Nat} (hlength : labels.length ≤ capacity)
    (h : Holds grammar labels position item)
    (hproduction : grammar.production? item.production = some production) (hdot : item.dot ≠ 0)
    (hinner : frame.rooted production.lhs = false) :
    cellOf grammar position item ∈
      frame.cellsAt outline grammar.table labels[item.origin]? capacity item.origin := by
  obtain ⟨extent, hextent, hslot, hlhs, hderives⟩ := h.exists_extent hproduction hdot
  have hlt := h.origin_lt hfits hframe hproduction hdot hinner
  obtain ⟨-, hposition, -⟩ := h
  have hlabel := List.getElem?_eq_getElem (Nat.lt_of_lt_of_le hlt hposition)
  have hfirst : labels[item.origin] ∈ outline.firstOf extent.symbols := by
    obtain ⟨rest, hspan⟩ := List.head?_eq_some_iff.mp ((span_head? labels hlt).trans hlabel)
    exact hfits.mem_firstOf (hspan ▸ hderives)
  have hends : position - item.origin - 1 < frame.ends (capacity - item.origin) extent := by
    rw [Frame.ends]
    cases hlimit : frame.longestOf extent.symbols with
    | none =>
        rw [Option.getD_none]
        omega
    | some limit =>
        have hle := Frame.length_le hframe hderives hlimit
        rw [span_length] at hle
        rw [Option.getD_some]
        omega
  refine List.mem_append_right _ (List.mem_flatMap.mpr
    ⟨extent, List.mem_filter.mpr ⟨hextent, ?_⟩, ?_⟩)
  · rw [hlhs, hinner, hlabel]
    simpa using hfirst
  · refine List.mem_map.mpr ⟨position - item.origin - 1, List.mem_range.mpr hends, ?_⟩
    rw [cellOf, hslot, show item.origin + (position - item.origin - 1 + 1) = position by omega]

/-- What is reached is in one of the cells. -/
theorem cellOf_mem_cells (hfits : outline.Fits grammar.table)
    (hframe : ∀ production ∈ grammar.table, frame.admits outline production = true)
    {capacity : Nat} (hlength : labels.length ≤ capacity)
    (h : Reached grammar start labels position item) :
    cellOf grammar position item ∈ frame.cells outline grammar.table labels capacity := by
  obtain ⟨horigin, hposition, production, hproduction, -⟩ := h.holds
  have hplace : ∀ place, place ≤ position →
      cellOf grammar position item ∈
        frame.cellsAt outline grammar.table labels[place]? capacity place →
      cellOf grammar position item ∈ frame.cells outline grammar.table labels capacity :=
    fun place hle hmem => List.mem_flatMap.mpr ⟨place, List.mem_range.mpr (by omega), hmem⟩
  by_cases hdot : item.dot = 0
  · -- A fresh item stands at its origin.
    obtain ⟨id, dot, origin⟩ := item
    obtain rfl : dot = 0 := hdot
    obtain rfl : position = origin := h.eq_origin
    have hid : id < grammar.table.length := by
      rw [Grammar.production?_eq] at hproduction
      exact (List.getElem?_eq_some_iff.mp hproduction).1
    refine hplace position (Nat.le_refl _) (List.mem_append_left _ (List.mem_append_left _ ?_))
    refine List.mem_map.mpr ⟨id, List.mem_range.mpr hid, ?_⟩
    rw [cellOf, slotOf, hproduction]
    rfl
  · cases hrooted : frame.rooted production.lhs with
    | true =>
        have hzero := h.origin_eq_zero hframe hproduction hrooted
        obtain ⟨extent, hextent, hslot, hlhs, -⟩ := h.holds.exists_extent hproduction hdot
        refine hplace position (Nat.le_refl _) (List.mem_append_left _ (List.mem_append_right _ ?_))
        refine List.mem_map.mpr ⟨extent, List.mem_filter.mpr ⟨hextent, hlhs ▸ hrooted⟩, ?_⟩
        rw [cellOf, hslot, hzero]
    | false =>
        exact hplace item.origin horigin
          (h.holds.cellOf_mem_cellsAt hfits hframe hlength hproduction hdot hrooted)

def cellsOf (grammar : Grammar) (sets : Array ItemSet) : List (Slot × Nat × Nat) :=
  sets.toList.zipIdx.flatMap fun (set, position) =>
    set.items.toList.map (cellOf grammar position)

theorem length_cellsOf (grammar : Grammar) (sets : Array ItemSet) :
    (cellsOf grammar sets).length = totalSize sets := by
  simp only [cellsOf, totalSize, List.length_flatMap, List.length_map, Array.length_toList]
  have hsizes : sets.toList.zipIdx.map (fun entry => entry.1.items.size) =
      (sets.toList.zipIdx.map Prod.fst).map ItemSet.size := by
    rw [List.map_map]
    rfl
  rw [hsizes, List.zipIdx_map_fst]

theorem cellsOf_nodup (hfits : outline.Fits grammar.table)
    (hexact : AllExact grammar start labels sets) : (cellsOf grammar sets).Nodup := by
  refine List.nodup_flatMap.mpr ⟨?_, ?_⟩
  · rintro ⟨set, position⟩ hset
    have hset := Array.getElem?_toList ▸ List.mem_zipIdx_iff_getElem?.mp hset
    obtain ⟨hnodup, hmem⟩ := hexact position set hset
    refine hnodup.map_on fun item hitem other hother => ?_
    exact cellOf_injective hfits ((hmem item).mp (Array.mem_toList_iff.mp hitem))
      ((hmem other).mp (Array.mem_toList_iff.mp hother))
  · -- Cells of different positions are different.
    refine (List.pairwise_map.mp (List.nodup_zipIdx_map_snd sets.toList)).imp ?_
    rintro ⟨set, position⟩ ⟨set', position'⟩ hne cell hcell hcell'
    obtain ⟨item, -, rfl⟩ := List.mem_map.mp hcell
    obtain ⟨other, -, hequal⟩ := List.mem_map.mp hcell'
    exact hne (congrArg (fun cell => cell.2.2) hequal).symm

/-- The items of exact sets are no more than the cells. -/
theorem totalSize_le (hfits : outline.Fits grammar.table)
    (hframe : ∀ production ∈ grammar.table, frame.admits outline production = true)
    {capacity : Nat} (hlength : labels.length ≤ capacity)
    (hexact : AllExact grammar start labels sets) :
    totalSize sets ≤ (frame.cells outline grammar.table labels capacity).length := by
  rw [← length_cellsOf grammar]
  refine (List.subperm_of_subset (cellsOf_nodup hfits hexact) fun cell hcell => ?_).length_le
  obtain ⟨⟨set, position⟩, hset, hcell⟩ := List.mem_flatMap.mp hcell
  obtain ⟨item, hitem, rfl⟩ := List.mem_map.mp hcell
  have hset := Array.getElem?_toList ▸ List.mem_zipIdx_iff_getElem?.mp hset
  have hreached := ((hexact position set hset).2 item).mp (Array.mem_toList_iff.mp hitem)
  exact cellOf_mem_cells hfits hframe hlength hreached

end Chart

end SpokenKeys
