import Std.Data.TreeSet.Lemmas

/-!
Chart items and the ordered sets they are collected in. A set lists its items
in the order they came, each once, and finds one quickly in a search tree over
the same items.
-/

namespace SpokenKeys

/-- A production with a mark behind some of its symbols. In the set of a
position it says that these symbols derive the tokens from the origin to the
position. -/
structure Item where
  production : Nat
  /-- Number of symbols before the mark. -/
  dot : Nat
  /-- Position of the token that the first symbol begins with. -/
  origin : Nat
deriving DecidableEq, Repr, Inhabited

namespace Item

def advance (item : Item) : Item := { item with dot := item.dot + 1 }

/-- Items are ordered by origin, then production, then mark. -/
def order (a b : Item) : Ordering :=
  compareLex (compareOn origin) (compareLex (compareOn production) (compareOn dot)) a b

instance : Std.TransCmp order :=
  inferInstanceAs <| Std.TransCmp <|
    compareLex (compareOn origin) (compareLex (compareOn production) (compareOn dot))

instance : Std.LawfulEqCmp order where
  eq_of_compare {a b} h := by
    simp only [order, compareLex_eq_eq, compareOn, Nat.compare_eq_eq] at h
    cases a
    cases b
    simp_all

end Item

/-- Items in the order they came, each once. -/
structure ItemSet where
  items : Array Item := #[]
  /-- The same items, ordered for search. -/
  index : Std.TreeSet Item Item.order := ∅
  mem_index (item : Item) : item ∈ index ↔ item ∈ items := by simp

namespace ItemSet

instance : EmptyCollection ItemSet := ⟨{ items := #[] }⟩

instance : Inhabited ItemSet := ⟨∅⟩

def size (set : ItemSet) : Nat := set.items.size

def isEmpty (set : ItemSet) : Bool := set.items.isEmpty

def contains (set : ItemSet) (item : Item) : Bool := set.index.contains item

theorem contains_iff (set : ItemSet) (item : Item) :
    set.contains item = true ↔ item ∈ set.items :=
  Std.TreeSet.contains_iff_mem.trans (set.mem_index item)

/-- The set with an item at its end, unless the item is in it already. -/
def insert (set : ItemSet) (item : Item) : ItemSet :=
  if set.contains item then set
  else {
    items := set.items.push item
    index := set.index.insert item
    mem_index other := by
      rw [Std.TreeSet.mem_insert, set.mem_index, Array.mem_push,
        Std.LawfulEqCmp.compare_eq_iff_eq, or_comm, eq_comm] }

def insertAll (set : ItemSet) (items : List Item) : ItemSet := items.foldl insert set

theorem mem_insert (set : ItemSet) (item other : Item) :
    other ∈ (set.insert item).items ↔ other ∈ set.items ∨ other = item := by
  unfold insert
  split
  next h =>
    rw [contains_iff] at h
    exact ⟨.inl, fun | .inl h' => h' | .inr e => e ▸ h⟩
  next => simp

theorem mem_insertAll (set : ItemSet) (items : List Item) (other : Item) :
    other ∈ (set.insertAll items).items ↔ other ∈ set.items ∨ other ∈ items := by
  induction items generalizing set with
  | nil => simp [insertAll]
  | cons item rest ih =>
      rw [insertAll, List.foldl_cons, ← insertAll, ih, mem_insert, List.mem_cons, or_assoc]

end ItemSet

end SpokenKeys
