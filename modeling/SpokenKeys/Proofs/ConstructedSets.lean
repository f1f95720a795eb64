import SpokenKeys.Proofs.Recognition

/-!
The sets of a chart, built without a look at the limit on items. A chart is too large
exactly if these hold more items than it allows, and every other chart is built exactly
if the start symbol derives the labels of the tokens.
-/

namespace SpokenKeys.Chart

variable {grammar : Grammar} {start : Rule} {labels : List String} {tokens : List Token}
  {earlier : Array ItemSet} {current : ItemSet}

/-- The sets of all positions, from the earlier ones and the beginning of the current
one, however many items they hold. -/
def fillSets (grammar : Grammar) : List Token → Array ItemSet → ItemSet → Array ItemSet
  | [], earlier, current => earlier.push (closeSet grammar none earlier.size earlier current).1
  | token :: rest, earlier, current =>
      let (current, next) := closeSet grammar (some token) earlier.size earlier current
      fillSets grammar rest (earlier.push current) next

/-- The sets that are constructed for a token list, whether it has a chart or not. -/
def constructed (grammar : Grammar) (start : Rule) (tokens : List Token) : Array ItemSet :=
  fillSets grammar tokens #[] ((∅ : ItemSet).insertAll (predict grammar start 0))

theorem fillSets_exact (hearlier : AllExact grammar start labels earlier)
    (hseeded : Seeded grammar start labels earlier.size current)
    (hdrop : labels.drop earlier.size = tokens.map Token.kind)
    (hle : earlier.size ≤ labels.length) :
    AllExact grammar start labels (fillSets grammar tokens earlier current) := by
  induction tokens generalizing earlier current with
  | nil =>
      have hend : earlier.size = labels.length :=
        Nat.le_antisymm hle (List.drop_eq_nil_iff.mp hdrop)
      have htoken : (none : Option Token).map Token.kind = labels[earlier.size]? := by
        rw [hend, List.getElem?_eq_none (Nat.le_refl _)]
        rfl
      exact allExact_push hearlier (closeSet_exact hearlier rfl htoken hseeded).1
  | cons token rest ih =>
      have hlabel : labels[earlier.size]? = some token.kind := by
        rw [← List.head?_drop, hdrop]
        rfl
      have hlt := (List.getElem?_eq_some_iff.mp hlabel).1
      have htoken : (some token).map Token.kind = labels[earlier.size]? := hlabel.symm
      obtain ⟨hexact, hnext⟩ := closeSet_exact hearlier rfl htoken hseeded
      have hsize : ∀ set : ItemSet, (earlier.push set).size = earlier.size + 1 :=
        fun _ => Array.size_push ..
      refine ih (allExact_push hearlier hexact) ?_ ?_ ?_
      · rw [hsize]
        exact hnext
      · rw [hsize, ← List.drop_drop, hdrop]
        rfl
      · rw [hsize]
        exact hlt

/-- The sets that are constructed are exact. -/
theorem constructed_exact (grammar : Grammar) (start : Rule) (tokens : List Token) :
    AllExact grammar start (tokens.map Token.kind) (constructed grammar start tokens) := by
  have hempty : AllExact grammar start (tokens.map Token.kind) #[] := by
    intro position set hset
    cases hset
  exact fillSets_exact hempty (seeded_start grammar start _) rfl (Nat.zero_le _)

/-- Nothing is added to a set that nothing begins. -/
theorem closeSet_of_isEmpty (grammar : Grammar) (token? : Option Token) (position : Nat)
    (earlier : Array ItemSet) (hempty : current.isEmpty = true) :
    closeSet grammar token? position earlier current = (current, ∅) := by
  have hnone : current.items[0]? = none := by
    rw [Array.isEmpty_iff.mp hempty]
    rfl
  simp only [closeSet, close, hnone]

/-- Where nothing goes on, the rest of the sets are empty. -/
theorem totalSize_fillSets_of_isEmpty (tokens : List Token) (earlier : Array ItemSet)
    (hempty : current.isEmpty = true) :
    totalSize (fillSets grammar tokens earlier current) = totalSize earlier := by
  have hsize : current.size = 0 := by
    rw [ItemSet.size, Array.isEmpty_iff.mp hempty]
    rfl
  induction tokens generalizing earlier current with
  | nil => rw [fillSets, closeSet_of_isEmpty _ _ _ _ hempty, totalSize_push, hsize, Nat.add_zero]
  | cons token rest ih =>
      rw [fillSets, closeSet_of_isEmpty _ _ _ _ hempty]
      dsimp only
      rw [ih _ rfl rfl, totalSize_push, hsize, Nat.add_zero]

theorem totalSize_le_fillSets (tokens : List Token) (earlier : Array ItemSet) (current : ItemSet) :
    totalSize earlier ≤ totalSize (fillSets grammar tokens earlier current) := by
  induction tokens generalizing earlier current with
  | nil =>
      rw [fillSets, totalSize_push]
      exact Nat.le_add_right _ _
  | cons token rest ih =>
      refine Nat.le_trans ?_ (ih _ _)
      rw [totalSize_push]
      exact Nat.le_add_right _ _

/-- Building the sets is filling them, with a look at the limit after each set. -/
theorem buildSets_tooLarge_iff (tokens : List Token) (earlier : Array ItemSet)
    (current : ItemSet) (hearlier : totalSize earlier ≤ Limits.chartItems) :
    (∃ items, buildSets grammar tokens earlier current (totalSize earlier) =
        .error (.tooLarge items)) ↔
      Limits.chartItems < totalSize (fillSets grammar tokens earlier current) := by
  induction tokens generalizing earlier current with
  | nil =>
      simp only [buildSets, fillSets]
      rw [← totalSize_push]
      split
      next hlarge => exact iff_of_true ⟨_, rfl⟩ hlarge
      next hsmall => exact iff_of_false (by simp) hsmall
  | cons token rest ih =>
      simp only [buildSets, fillSets]
      rw [← totalSize_push]
      generalize closeSet grammar (some token) earlier.size earlier current = result
      split
      next hlarge =>
        exact iff_of_true ⟨_, rfl⟩ (Nat.lt_of_lt_of_le hlarge (totalSize_le_fillSets _ _ _))
      next hsmall =>
        -- An utterance that does not go on is rejected, with no set larger than these.
        split
        next hempty =>
          rw [totalSize_fillSets_of_isEmpty _ _ hempty]
          exact iff_of_false (by simp) hsmall
        next => exact ih _ _ (Nat.not_lt.mp hsmall)

theorem eq_fillSets_of_buildSets (tokens : List Token) {total : Nat} {sets : Array ItemSet}
    (h : buildSets grammar tokens earlier current total = .ok sets) :
    sets = fillSets grammar tokens earlier current := by
  induction tokens generalizing earlier current total with
  | nil =>
      simp only [buildSets] at h
      split at h
      · cases h
      · cases h
        rfl
  | cons token rest ih =>
      simp only [buildSets] at h
      split at h
      · cases h
      · split at h
        · cases h
        · exact ih h

/-- A chart is refused for its size exactly if the sets hold more items than one may. -/
theorem build_tooLarge_iff (grammar : Grammar) (start : Rule) (tokens : List Token) :
    (∃ items, build grammar start tokens = .error (.tooLarge items)) ↔
      Limits.chartItems < totalSize (constructed grammar start tokens) := by
  have hempty : totalSize #[] = 0 := rfl
  rw [constructed, ← buildSets_tooLarge_iff _ _ _ (hempty ▸ Nat.zero_le _), build, hempty]
  generalize buildSets grammar tokens #[] _ 0 = built
  cases built with
  | error failure => simp [bind, Except.bind]
  | ok sets =>
      refine iff_of_false ?_ (by simp)
      rintro ⟨items, h⟩
      revert h
      dsimp only [bind, Except.bind]
      split <;> simp

theorem sets_of_build {chart : Chart} (h : build grammar start tokens = .ok chart) :
    chart.sets = constructed grammar start tokens := by
  rw [build] at h
  cases hsets : buildSets grammar tokens #[] ((∅ : ItemSet).insertAll (predict grammar start 0)) 0
    with
  | error failure =>
      rw [hsets] at h
      cases h
  | ok sets =>
      rw [hsets] at h
      dsimp only [bind, Except.bind] at h
      split at h
      · cases h
        exact eq_fillSets_of_buildSets tokens hsets
      · cases h

theorem itemCount_eq (chart : Chart) : chart.itemCount = totalSize chart.sets := by
  rw [itemCount, totalSize, ← Array.foldl_toList, List.sum_eq_foldl, List.foldl_map]

/-- With no more items than a chart may hold, there is a chart exactly of what is derived. -/
theorem exists_build_iff
    (hsmall : totalSize (constructed grammar start tokens) ≤ Limits.chartItems) :
    (∃ chart, build grammar start tokens = .ok chart) ↔
      grammar.Generates start (tokens.map Token.kind) := by
  rcases build_cases grammar start tokens with
    ⟨chart, hchart, -, -, -, hgenerates⟩ | ⟨last, hlast, -, hnot⟩ | ⟨sets, hsets, -⟩
  · exact iff_of_true ⟨chart, hchart⟩ hgenerates
  · refine iff_of_false ?_ hnot
    rintro ⟨chart, hchart⟩
    rw [hlast] at hchart
    cases hchart
  · have hlarge := (build_tooLarge_iff grammar start tokens).mp ⟨_, hsets⟩
    exact absurd hlarge (Nat.not_lt.mpr hsmall)

/-- Recognition is exact: for every table, start symbol and token list, if the sets that
are constructed hold no more items than a chart may, there is a chart exactly if the start
symbol derives the labels of the tokens by the productions of the table. If they hold more,
it is for their number that there is no chart. -/
theorem build_isOk_iff (table : List Production) (start : Rule) (tokens : List Token) :
    let items := totalSize (constructed (.ofProductions table) start tokens)
    (Limits.chartItems < items ∧
      ∃ seen, build (.ofProductions table) start tokens = .error (.tooLarge seen)) ∨
    (items ≤ Limits.chartItems ∧
      ((∃ chart, build (.ofProductions table) start tokens = .ok chart) ↔
        Derives table [.rule start] (tokens.map Token.kind))) := by
  intro items
  by_cases hlarge : Limits.chartItems < items
  · exact .inl ⟨hlarge, (build_tooLarge_iff _ start tokens).mpr hlarge⟩
  · have hsmall := Nat.not_lt.mp hlarge
    have hiff := exists_build_iff hsmall
    rw [Grammar.Generates, Grammar.table_ofProductions] at hiff
    exact .inr ⟨hsmall, hiff⟩

/-- Steps one after the other, any number of them, each with a word for its count or none. -/
def stepTable : List Production := [
  ⟨.commands, [], .commands⟩,
  ⟨.commands, [.rule .commands, .rule .movement, .rule .count], .commands⟩,
  ⟨.movement, [.terminal "up"], .movement⟩,
  ⟨.count, [], .count⟩,
  ⟨.count, [.terminal "two"], .count⟩]

/-- Two steps, the first one twice, have a chart since they are derived; a count before the
first step is not derived since it has none. -/
theorem chart_of_counted_steps :
    let tokens := [Token.ofWord "up" 0, .ofWord "two" 1, .ofWord "up" 2]
    (∃ chart, build (.ofProductions stepTable) .commands tokens = .ok chart) ∧
    ¬ Derives stepTable [.rule .commands] ["two", "up"] := by
  intro tokens
  have hmovement : Derives stepTable [.rule .movement] ["up"] :=
    Derives.single_iff.mpr ⟨⟨.movement, _, .movement⟩, by decide, rfl, .terminal .nil⟩
  have hcount : Derives stepTable [.rule .count] ["two"] :=
    Derives.single_iff.mpr ⟨⟨.count, [.terminal "two"], .count⟩, by decide, rfl, .terminal .nil⟩
  have hnone : Derives stepTable [.rule .count] [] :=
    Derives.single_iff.mpr ⟨⟨.count, [], .count⟩, by decide, rfl, .nil⟩
  have hnothing : Derives stepTable [.rule .commands] [] :=
    Derives.single_iff.mpr ⟨⟨.commands, [], .commands⟩, by decide, rfl, .nil⟩
  have hmore : ∀ {front back : List String}, Derives stepTable [.rule .commands] front →
      Derives stepTable [.rule .count] back →
      Derives stepTable [.rule .commands] (front ++ (["up"] ++ back)) :=
    fun hfront hback => Derives.single_iff.mpr
      ⟨⟨.commands, [.rule .commands, .rule .movement, .rule .count], .commands⟩, by decide, rfl,
        hfront.append (hmovement.append hback)⟩
  constructor
  · have hsmall : totalSize (constructed (.ofProductions stepTable) .commands tokens) ≤
        Limits.chartItems := by
      decide +kernel
    rcases build_isOk_iff stepTable .commands tokens with ⟨hlarge, -⟩ | ⟨-, hiff⟩
    · exact absurd hlarge (Nat.not_lt.mpr hsmall)
    · exact hiff.mpr (hmore (hmore hnothing hcount) hnone)
  · intro hderives
    have hsmall : totalSize (constructed (.ofProductions stepTable) .commands
        [.ofWord "two" 0, .ofWord "up" 1]) ≤ Limits.chartItems := by
      decide +kernel
    have hnot : (build (.ofProductions stepTable) .commands
        [.ofWord "two" 0, .ofWord "up" 1]).isOk = false := by
      decide +kernel
    rcases build_isOk_iff stepTable .commands [.ofWord "two" 0, .ofWord "up" 1] with
      ⟨hlarge, -⟩ | ⟨-, hiff⟩
    · exact absurd hlarge (Nat.not_lt.mpr hsmall)
    · obtain ⟨chart, hchart⟩ := hiff.mpr hderives
      rw [hchart] at hnot
      cases hnot

end SpokenKeys.Chart
