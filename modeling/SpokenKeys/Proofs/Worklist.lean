import Mathlib.Data.List.Perm.Subperm
import SpokenKeys.Proofs.Items

/-!
The loop that closes an item set. It goes through a list that grows while it
is gone through, so what it keeps is said of the items before the index: what
they call for is there. The list never holds more items than there are
productions, marks and origins, which is why the loop comes to its end.
-/

namespace SpokenKeys

namespace ItemSet

variable {set : ItemSet}

theorem insert_grows (set : ItemSet) (item : Item) :
    set.items.toList <+: (set.insert item).items.toList := by
  unfold insert
  split
  · exact List.prefix_refl _
  · simp

theorem insertAll_grows (set : ItemSet) (items : List Item) :
    set.items.toList <+: (set.insertAll items).items.toList := by
  induction items generalizing set with
  | nil => exact List.prefix_refl _
  | cons item rest ih => exact (insert_grows set item).trans (ih (set.insert item))

theorem insert_nodup (h : set.items.toList.Nodup) (item : Item) :
    (set.insert item).items.toList.Nodup := by
  unfold insert
  split
  · exact h
  next hnew =>
    rw [contains_iff] at hnew
    rw [Array.toList_push, List.nodup_append]
    refine ⟨h, List.nodup_cons.mpr ⟨List.not_mem_nil, List.nodup_nil⟩, ?_⟩
    rintro other hother _ hitem rfl
    rw [List.mem_singleton.mp hitem] at hother
    exact hnew (Array.mem_toList_iff.mp hother)

theorem insertAll_nodup (h : set.items.toList.Nodup) (items : List Item) :
    (set.insertAll items).items.toList.Nodup := by
  induction items generalizing set with
  | nil => exact h
  | cons item rest ih => exact ih (insert_nodup h item)

end ItemSet

namespace Chart

variable {grammar : Grammar} {token? : Option Token} {position : Nat} {earlier : Array ItemSet}
  {current next : ItemSet}

/-- Every item that a set at a position can hold. -/
def possibleItems (grammar : Grammar) (position : Nat) : List Item :=
  (List.range (position + 1)).flatMap fun origin =>
    grammar.table.zipIdx.flatMap fun (production, id) =>
      (List.range (production.length + 1)).map fun dot => ⟨id, dot, origin⟩

theorem length_possibleItems (grammar : Grammar) (position : Nat) :
    (possibleItems grammar position).length = itemBound grammar position := by
  have hcolumn : ∀ (table : List Production) (first origin : Nat),
      ((table.zipIdx first).flatMap fun (production, id) =>
        (List.range (production.length + 1)).map fun dot =>
          (⟨id, dot, origin⟩ : Item)).length = markCount table := by
    intro table
    induction table with
    | nil => exact fun _ _ => rfl
    | cons production rest ih =>
        intro first origin
        rw [List.zipIdx_cons, List.flatMap_cons, List.length_append, ih]
        simp [markCount]
  simp only [possibleItems, List.length_flatMap, hcolumn, itemBound]
  simp [Nat.mul_comm]

theorem mem_possibleItems {item : Item} {production : Production}
    (hproduction : grammar.production? item.production = some production)
    (hdot : item.dot ≤ production.length) (horigin : item.origin ≤ position) :
    item ∈ possibleItems grammar position := by
  rw [Grammar.production?_eq] at hproduction
  refine List.mem_flatMap.mpr ⟨item.origin, List.mem_range.mpr (by omega), ?_⟩
  refine List.mem_flatMap.mpr
    ⟨(production, item.production), List.mem_zipIdx_iff_getElem?.mpr hproduction, ?_⟩
  exact List.mem_map.mpr ⟨item.dot, List.mem_range.mpr (by omega), rfl⟩

theorem length_le_itemBound {labels : List String} {items : List Item} (hnodup : items.Nodup)
    (hholds : ∀ item ∈ items, Holds grammar labels position item) :
    items.length ≤ itemBound grammar position := by
  rw [← length_possibleItems]
  refine (List.subperm_of_subset hnodup fun item hitem => ?_).length_le
  obtain ⟨horigin, -, production, hproduction, hdot, -⟩ := hholds item hitem
  exact mem_possibleItems hproduction hdot horigin

/-- What an item calls for is in the current set and in the next one. The origin
set may have been any earlier state of the current one. -/
def Handled (grammar : Grammar) (token? : Option Token) (position : Nat)
    (earlier : Array ItemSet) (current next : ItemSet) (item : Item) : Prop :=
  ∃ before : ItemSet, (∀ other ∈ before.items, other ∈ current.items) ∧
    (∀ other ∈ (consequences grammar token? position
      (earlier.getD item.origin before) item).1, other ∈ current.items) ∧
    (∀ other ∈ (consequences grammar token? position
      (earlier.getD item.origin before) item).2, other ∈ next.items)

theorem Handled.mono {current' next' : ItemSet} {item : Item}
    (h : Handled grammar token? position earlier current next item)
    (hcurrent : ∀ other ∈ current.items, other ∈ current'.items)
    (hnext : ∀ other ∈ next.items, other ∈ next'.items) :
    Handled grammar token? position earlier current' next' item := by
  obtain ⟨before, hbefore, hhere, hthere⟩ := h
  exact ⟨before, fun other hother => hcurrent other (hbefore other hother),
    fun other hother => hcurrent other (hhere other hother),
    fun other hother => hnext other (hthere other hother)⟩

/-- What the loop keeps: its sets have no item twice, their items have given
properties, and the items before the index are handled. -/
structure Progress (grammar : Grammar) (token? : Option Token) (position : Nat)
    (earlier : Array ItemSet) (P Q : Item → Prop) (index : Nat) (current next : ItemSet) :
    Prop where
  current_nodup : current.items.toList.Nodup
  next_nodup : next.items.toList.Nodup
  current_sound : ∀ item ∈ current.items, P item
  next_sound : ∀ item ∈ next.items, Q item
  handled : ∀ item ∈ current.items.toList.take index,
    Handled grammar token? position earlier current next item

def PassesOn (grammar : Grammar) (token? : Option Token) (position : Nat)
    (earlier : Array ItemSet) (P Q : Item → Prop) : Prop :=
  ∀ (before : ItemSet) (item : Item), (∀ other ∈ before.items, P other) → P item →
    (∀ other ∈ (consequences grammar token? position
      (earlier.getD item.origin before) item).1, P other) ∧
    (∀ other ∈ (consequences grammar token? position
      (earlier.getD item.origin before) item).2, Q other)

variable {P Q : Item → Prop} {index : Nat}

theorem Progress.step (hpasses : PassesOn grammar token? position earlier P Q) {item : Item}
    (h : Progress grammar token? position earlier P Q index current next)
    (hitem : current.items[index]? = some item) :
    Progress grammar token? position earlier P Q (index + 1)
      (current.insertAll (consequences grammar token? position
        (earlier.getD item.origin current) item).1)
      (next.insertAll (consequences grammar token? position
        (earlier.getD item.origin current) item).2) := by
  have hmem : item ∈ current.items := Array.mem_of_getElem? hitem
  obtain ⟨hhere, hthere⟩ :=
    hpasses current item h.current_sound (h.current_sound item hmem)
  have hgrows : ∀ (set : ItemSet) (items : List Item), ∀ other ∈ set.items,
      other ∈ (set.insertAll items).items :=
    fun set items other hother => (ItemSet.mem_insertAll set items other).mpr (.inl hother)
  refine ⟨ItemSet.insertAll_nodup h.current_nodup _, ItemSet.insertAll_nodup h.next_nodup _,
    ?_, ?_, ?_⟩
  · intro other hother
    rcases (ItemSet.mem_insertAll ..).mp hother with hold | hnew
    · exact h.current_sound other hold
    · exact hhere other hnew
  · intro other hother
    rcases (ItemSet.mem_insertAll ..).mp hother with hold | hnew
    · exact h.next_sound other hold
    · exact hthere other hnew
  · intro other hother
    have hlt : index < current.items.toList.length := by
      simpa using (Array.getElem?_eq_some_iff.mp hitem).1
    -- Sets grow at their ends, so the items before the index are as they were.
    have htake : ((current.insertAll (consequences grammar token? position
        (earlier.getD item.origin current) item).1).items.toList).take (index + 1) =
        current.items.toList.take index ++ [item] := by
      obtain ⟨more, hmore⟩ := current.insertAll_grows
        (consequences grammar token? position (earlier.getD item.origin current) item).1
      rw [← hmore, List.take_append_of_le_length hlt, List.take_add_one,
        Array.getElem?_toList, hitem]
      rfl
    rw [htake, List.mem_append, List.mem_singleton] at hother
    rcases hother with hold | rfl
    · exact (h.handled other hold).mono (hgrows current _) (hgrows next _)
    · exact ⟨current, hgrows current _,
        fun more hmore => (ItemSet.mem_insertAll ..).mpr (.inr hmore),
        fun more hmore => (ItemSet.mem_insertAll ..).mpr (.inr hmore)⟩

/-- The loop stops where no item is left or the bound is used up. -/
theorem Progress.close (hpasses : PassesOn grammar token? position earlier P Q) (fuel : Nat)
    (h : Progress grammar token? position earlier P Q index current next) :
    ∃ stop, Progress grammar token? position earlier P Q stop
        (close grammar token? position earlier fuel index current next).1
        (close grammar token? position earlier fuel index current next).2 ∧
      ((close grammar token? position earlier fuel index current next).1.size ≤ stop ∨
        stop = index + fuel) := by
  induction fuel generalizing index current next with
  | zero => exact ⟨index, h, .inr rfl⟩
  | succ fuel ih =>
      simp only [Chart.close]
      split
      next hnone => exact ⟨index, h, .inl (Array.getElem?_eq_none_iff.mp hnone)⟩
      next item hitem =>
        obtain ⟨stop, hprogress, hstop⟩ := ih (h.step hpasses hitem)
        exact ⟨stop, hprogress, hstop.imp_right (by omega)⟩

/-- What closing a set comes to: all items of the closed set are handled. -/
structure Closed (grammar : Grammar) (token? : Option Token) (position : Nat)
    (earlier : Array ItemSet) (P Q : Item → Prop) (current closed after : ItemSet) : Prop where
  nodup : closed.items.toList.Nodup
  after_nodup : after.items.toList.Nodup
  sound : ∀ item ∈ closed.items, P item
  after_sound : ∀ item ∈ after.items, Q item
  contains : ∀ item ∈ current.items, item ∈ closed.items
  handled : ∀ item ∈ closed.items, Handled grammar token? position earlier closed after item

theorem close_contains (fuel : Nat) {item : Item} (h : item ∈ current.items) :
    item ∈ (close grammar token? position earlier fuel index current next).1.items := by
  induction fuel generalizing index current next with
  | zero => exact h
  | succ fuel ih =>
      simp only [Chart.close]
      split
      · exact h
      · exact ih ((ItemSet.mem_insertAll ..).mpr (.inl h))

/-- The bound of the loop is enough where all items hold. -/
theorem closeSet_closed {labels : List String}
    (hpasses : PassesOn grammar token? position earlier P Q)
    (hholds : ∀ item, P item → Holds grammar labels position item)
    (hnodup : current.items.toList.Nodup) (hsound : ∀ item ∈ current.items, P item) :
    Closed grammar token? position earlier P Q current
      (closeSet grammar token? position earlier current).1
      (closeSet grammar token? position earlier current).2 := by
  have hstart : Progress grammar token? position earlier P Q 0 current ∅ :=
    ⟨hnodup, List.nodup_nil, hsound, fun _ h => absurd h (Array.not_mem_empty _),
      fun _ h => absurd h List.not_mem_nil⟩
  have hcontains : ∀ item ∈ current.items,
      item ∈ (closeSet grammar token? position earlier current).1.items :=
    fun item hitem => close_contains _ hitem
  obtain ⟨stop, hprogress, hstop⟩ := hstart.close hpasses (itemBound grammar position + 1)
  rw [← closeSet] at hprogress hstop
  generalize closeSet grammar token? position earlier current = result at *
  have hbound := length_le_itemBound hprogress.current_nodup
    (fun item hitem => hholds item (hprogress.current_sound item (Array.mem_toList_iff.mp hitem)))
  have hall : result.1.items.toList.length ≤ stop := by
    rcases hstop with hsize | rfl
    · exact hsize
    · exact Nat.le_trans hbound (by omega)
  refine ⟨hprogress.current_nodup, hprogress.next_nodup, hprogress.current_sound,
    hprogress.next_sound, hcontains, fun item hitem => hprogress.handled item ?_⟩
  rw [List.take_of_length_le hall]
  exact Array.mem_toList_iff.mpr hitem

end Chart

end SpokenKeys
