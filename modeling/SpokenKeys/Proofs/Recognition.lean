import Mathlib.Algebra.GroupWithZero.Nat
import SpokenKeys.Proofs.Nullable
import SpokenKeys.Proofs.Worklist

/-!
Recognition is exact. The sets that the chart is built from hold what is
reached at their positions, no more and no less, although each is gone through
only once: a completion at its own position passes over a nonterminal that
derives the empty list, and that was done when the nonterminal was predicted.
-/

namespace SpokenKeys.Chart

variable {grammar : Grammar} {start : Rule} {labels : List String} {position : Nat}
  {token? : Option Token} {origin : ItemSet} {item other : Item} {earlier : Array ItemSet}
  {current : ItemSet}

theorem mem_predict {rule : Rule} :
    other ∈ predict grammar rule position ↔
      ∃ id ∈ grammar.alternatives rule, other = ⟨id, 0, position⟩ := by
  simp [predict, eq_comm]

theorem mem_complete {rule : Rule} :
    other ∈ complete grammar origin rule ↔
      ∃ waiting ∈ origin.items, nextSymbol? grammar waiting = some (.rule rule) ∧
        other = waiting.advance := by
  simp only [complete, List.mem_map, List.mem_filter, Array.mem_toList_iff, beq_iff_eq, and_assoc,
    eq_comm (b := other)]

theorem nextSymbol?_eq {production : Production}
    (hproduction : grammar.production? item.production = some production) :
    nextSymbol? grammar item = production.rhs[item.dot]? := by
  rw [nextSymbol?, hproduction]
  rfl

theorem mem_consequences_here :
    other ∈ (consequences grammar token? position origin item).1 ↔
      (∃ production, grammar.production? item.production = some production ∧
        production.rhs[item.dot]? = none ∧
        ∃ waiting ∈ origin.items, nextSymbol? grammar waiting = some (.rule production.lhs) ∧
          other = waiting.advance) ∨
      (∃ rule, nextSymbol? grammar item = some (.rule rule) ∧
        ((∃ id ∈ grammar.alternatives rule, other = ⟨id, 0, position⟩) ∨
          grammar.isNullable rule = true ∧ other = item.advance)) := by
  cases hproduction : grammar.production? item.production with
  | none => simp [consequences, nextSymbol?, hproduction]
  | some production =>
      rw [nextSymbol?_eq hproduction]
      cases hsymbol : production.rhs[item.dot]? with
      | none =>
          simp only [consequences, hproduction, hsymbol, mem_complete]
          constructor
          · intro h
            exact .inl ⟨production, rfl, hsymbol, h⟩
          · rintro (⟨_, hsame, -, h⟩ | ⟨rule, hnext, -⟩)
            · cases hsame
              exact h
            · cases hnext
      | some symbol =>
          cases symbol with
          | terminal label =>
              have hnone : (consequences grammar token? position origin item).1 = [] := by
                cases token? <;> simp only [consequences, hproduction, hsymbol]
              rw [hnone]
              constructor
              · intro h
                cases h
              · rintro (⟨_, hsame, hend, -⟩ | ⟨rule, hnext, -⟩)
                · cases hsame
                  rw [hsymbol] at hend
                  cases hend
                · cases hnext
          | rule rule =>
              have hmem : other ∈ (consequences grammar token? position origin item).1 ↔
                  other ∈ predict grammar rule position ∨
                    grammar.isNullable rule = true ∧ other = item.advance := by
                simp only [consequences, hproduction, hsymbol]
                split
                next hnullable => simp [hnullable]
                next hnullable => simp [hnullable]
              rw [hmem, mem_predict]
              constructor
              · intro h
                exact .inr ⟨rule, rfl, h⟩
              · rintro (⟨_, hsame, hend, -⟩ | ⟨other, hnext, h⟩)
                · cases hsame
                  rw [hsymbol] at hend
                  cases hend
                · cases hnext
                  exact h

theorem mem_consequences_there :
    other ∈ (consequences grammar token? position origin item).2 ↔
      ∃ token, token? = some token ∧
        nextSymbol? grammar item = some (.terminal token.kind) ∧ other = item.advance := by
  cases hproduction : grammar.production? item.production with
  | none => simp [consequences, nextSymbol?, hproduction]
  | some production =>
      rw [nextSymbol?_eq hproduction]
      cases hsymbol : production.rhs[item.dot]? with
      | none => simp [consequences, hproduction, hsymbol]
      | some symbol =>
          cases symbol with
          | rule rule => simp [consequences, hproduction, hsymbol]
          | terminal label =>
              cases token? with
              | none => simp [consequences, hproduction, hsymbol]
              | some token =>
                  by_cases hkind : token.kind = label
                  · simp [consequences, hproduction, hsymbol, Token.matchesLabel, hkind]
                  · simp [consequences, hproduction, hsymbol, Token.matchesLabel, hkind,
                      Ne.symm hkind]

/-- A set holds each of the items that are reached at a position, and no other. -/
def Exact (grammar : Grammar) (start : Rule) (labels : List String) (position : Nat)
    (set : ItemSet) : Prop :=
  set.items.toList.Nodup ∧
    ∀ item, item ∈ set.items ↔ Reached grammar start labels position item

/-- What a set holds before it is closed: reached items, among them those that
the start symbol and the label before the position call for. -/
structure Seeded (grammar : Grammar) (start : Rule) (labels : List String) (position : Nat)
    (set : ItemSet) : Prop where
  nodup : set.items.toList.Nodup
  sound : ∀ item ∈ set.items, Reached grammar start labels position item
  started : position = 0 → ∀ id ∈ grammar.alternatives start, ⟨id, 0, 0⟩ ∈ set.items
  scanned : ∀ {before : Nat} {item : Item} {label : String}, position = before + 1 →
    Reached grammar start labels before item →
    nextSymbol? grammar item = some (.terminal label) → labels[before]? = some label →
    item.advance ∈ set.items

def AllExact (grammar : Grammar) (start : Rule) (labels : List String) (sets : Array ItemSet) :
    Prop :=
  ∀ position set, sets[position]? = some set → Exact grammar start labels position set

theorem seeded_start (grammar : Grammar) (start : Rule) (labels : List String) :
    Seeded grammar start labels 0 ((∅ : ItemSet).insertAll (predict grammar start 0)) := by
  have hmem : ∀ item, item ∈ ((∅ : ItemSet).insertAll (predict grammar start 0)).items ↔
      ∃ id ∈ grammar.alternatives start, item = ⟨id, 0, 0⟩ := by
    intro item
    rw [ItemSet.mem_insertAll, mem_predict]
    exact or_iff_right (Array.not_mem_empty item)
  refine ⟨ItemSet.insertAll_nodup List.nodup_nil _, fun item hitem => ?_,
    fun _ id hid => (hmem _).mpr ⟨id, hid, rfl⟩, fun h => absurd h (Nat.succ_ne_zero _).symm⟩
  obtain ⟨id, hid, rfl⟩ := (hmem item).mp hitem
  exact .start hid

/-- The origin set of an item, as far as the loop knows it, holds only what is
reached there. -/
theorem reached_of_mem_origin {before : ItemSet} {waiting : Item}
    (hearlier : AllExact grammar start labels earlier) (hsize : earlier.size = position)
    (hbefore : ∀ other ∈ before.items, Reached grammar start labels position other)
    (hle : item.origin ≤ position)
    (hwaiting : waiting ∈ (earlier.getD item.origin before).items) :
    Reached grammar start labels item.origin waiting := by
  rw [Array.getD_eq_getD_getElem?] at hwaiting
  cases hset : earlier[item.origin]? with
  | some set =>
      rw [hset] at hwaiting
      exact ((hearlier _ _ hset).2 waiting).mp hwaiting
  | none =>
      -- The item begins at the position itself, whose set is not closed yet.
      rw [hset] at hwaiting
      have hge := Array.getElem?_eq_none_iff.mp hset
      obtain rfl : item.origin = position := by omega
      exact hbefore waiting hwaiting

theorem reached_passesOn (hearlier : AllExact grammar start labels earlier)
    (hsize : earlier.size = position) (htoken : token?.map Token.kind = labels[position]?) :
    PassesOn grammar token? position earlier (Reached grammar start labels position)
      (Reached grammar start labels (position + 1)) := by
  intro before item hbefore hitem
  constructor
  · intro other hother
    rcases mem_consequences_here.mp hother with
      ⟨production, hproduction, hend, waiting, hwaiting, hnext, rfl⟩ |
      ⟨rule, hnext, ⟨id, hid, rfl⟩ | ⟨hnullable, rfl⟩⟩
    · obtain ⟨hdot, -⟩ := hitem.holds.of_production hproduction
      have hlength : item.dot = production.length :=
        Nat.le_antisymm hdot (List.getElem?_eq_none_iff.mp hend)
      exact hitem.complete hproduction hlength
        (reached_of_mem_origin hearlier hsize hbefore hitem.origin_le hwaiting) hnext
    · exact hitem.predict hnext hid
    · have hempty : Derives grammar.table [.rule rule] (span labels position position) := by
        rw [span_self]
        exact Grammar.isNullable_iff.mp hnullable
      obtain ⟨id, hid, production, hproduction, hdone⟩ :=
        hitem.complete_rule hnext (Nat.le_refl _) hitem.holds.2.1 hempty
      have hlhs := Grammar.lhs_of_mem_alternatives hid hproduction
      exact hdone.complete hproduction rfl hitem (hlhs ▸ hnext)
  · intro other hother
    obtain ⟨token, rfl, hnext, rfl⟩ := mem_consequences_there.mp hother
    exact hitem.scan hnext htoken.symm

/-- A closed set holds everything that is reached. The induction is on why the
item is reached; an item that waits at the position itself moved when the
nonterminal was predicted. -/
theorem mem_of_reached {closed after : ItemSet}
    (hearlier : AllExact grammar start labels earlier) (hsize : earlier.size = position)
    (hseeded : Seeded grammar start labels position current)
    (hclosed : Closed grammar token? position earlier (Reached grammar start labels position)
      (Reached grammar start labels (position + 1)) current closed after)
    (h : Reached grammar start labels position item) : item ∈ closed.items := by
  generalize hplace : position = place at h
  induction h with
  | start hid => exact hclosed.contains _ (hseeded.started hplace _ hid)
  | predict _ hnext hid ih =>
      subst hplace
      obtain ⟨before, -, hhere, -⟩ := hclosed.handled _ (ih rfl)
      exact hhere _ (mem_consequences_here.mpr (.inr ⟨_, hnext, .inl ⟨_, hid, rfl⟩⟩))
  | scan hitem hnext hlabel _ =>
      exact hclosed.contains _ (hseeded.scanned hplace hitem hnext hlabel)
  | @complete place done waiting production hdone hproduction hdot hwaiting hnext ihdone
      ihwaiting =>
      subst hplace
      obtain ⟨before, -, hhere, -⟩ := hclosed.handled _ (ihdone rfl)
      rcases Nat.lt_or_eq_of_le hdone.origin_le with hlt | hequal
      · -- The origin set is closed, so the waiting item was in it.
        obtain ⟨set, hset⟩ : ∃ set, earlier[done.origin]? = some set :=
          ⟨_, Array.getElem?_eq_getElem (by omega)⟩
        have hmem : waiting ∈ (earlier.getD done.origin before).items := by
          rw [Array.getD_eq_getD_getElem?, hset]
          exact ((hearlier _ _ hset).2 waiting).mpr hwaiting
        have hend : production.rhs[done.dot]? = none :=
          List.getElem?_eq_none_iff.mpr (Nat.le_of_eq hdot.symm)
        exact hhere _ (mem_consequences_here.mpr
          (.inl ⟨production, hproduction, hend, waiting, hmem, hnext, rfl⟩))
      · -- Nothing was derived, which is why the waiting item has moved already.
        have hnullable : grammar.isNullable production.lhs = true := by
          have hderives := hdone.holds.derives_lhs hproduction hdot
          rw [hequal, span_self] at hderives
          exact Grammar.isNullable_iff.mpr hderives
        obtain ⟨before', -, hhere', -⟩ := hclosed.handled _ (ihwaiting hequal.symm)
        exact hhere' _ (mem_consequences_here.mpr (.inr ⟨_, hnext, .inr ⟨hnullable, rfl⟩⟩))

/-- Closing the set of a position makes it exact and seeds the next one. -/
theorem closeSet_exact (hearlier : AllExact grammar start labels earlier)
    (hsize : earlier.size = position) (htoken : token?.map Token.kind = labels[position]?)
    (hseeded : Seeded grammar start labels position current) :
    Exact grammar start labels position (closeSet grammar token? position earlier current).1 ∧
      Seeded grammar start labels (position + 1)
        (closeSet grammar token? position earlier current).2 := by
  have hclosed := closeSet_closed
    (reached_passesOn hearlier hsize htoken) (fun _ hitem => hitem.holds)
    hseeded.nodup hseeded.sound
  have hexact : ∀ item,
      item ∈ (closeSet grammar token? position earlier current).1.items ↔
        Reached grammar start labels position item :=
    fun item => ⟨hclosed.sound item, mem_of_reached hearlier hsize hseeded hclosed⟩
  refine ⟨⟨hclosed.nodup, hexact⟩, hclosed.after_nodup, hclosed.after_sound,
    fun h => absurd h (Nat.succ_ne_zero _), ?_⟩
  intro before item label hbefore hitem hnext hlabel
  obtain rfl : position = before := Nat.succ.inj hbefore
  obtain ⟨token, rfl, rfl⟩ := Option.map_eq_some_iff.mp (htoken.trans hlabel)
  obtain ⟨before, -, -, hthere⟩ := hclosed.handled item ((hexact item).mpr hitem)
  exact hthere _ (mem_consequences_there.mpr ⟨token, rfl, hnext, rfl⟩)

theorem allExact_push {set : ItemSet} (hearlier : AllExact grammar start labels earlier)
    (hset : Exact grammar start labels earlier.size set) :
    AllExact grammar start labels (earlier.push set) := by
  intro position other hother
  rcases Nat.lt_or_ge position earlier.size with hlt | hge
  · rw [Array.getElem?_push_lt hlt] at hother
    exact hearlier position other (by rw [← hother]; exact Array.getElem?_eq_getElem hlt)
  · have hlt := (Array.getElem?_eq_some_iff.mp hother).1
    rw [Array.size_push] at hlt
    obtain rfl : position = earlier.size := by omega
    rw [Array.getElem?_push_size] at hother
    exact Option.some.inj hother ▸ hset

def totalSize (sets : Array ItemSet) : Nat := (sets.toList.map ItemSet.size).sum

theorem totalSize_push (sets : Array ItemSet) (set : ItemSet) :
    totalSize (sets.push set) = totalSize sets + set.size := by
  simp [totalSize]

/-- Building the sets ends in one of three ways. The sets are there and exact;
or there is a first position that nothing is reached at; or the sets so far,
which are exact, hold too many items. -/
theorem buildSets_cases (tokens : List Token) (hearlier : AllExact grammar start labels earlier)
    (hseeded : Seeded grammar start labels earlier.size current)
    (hdrop : labels.drop earlier.size = tokens.map Token.kind)
    (hle : earlier.size ≤ labels.length) :
    (∃ sets, buildSets grammar tokens earlier current (totalSize earlier) = .ok sets ∧
      AllExact grammar start labels sets ∧ sets.size = labels.length + 1 ∧
      (earlier.size < labels.length → ∃ item, Reached grammar start labels labels.length item)) ∨
    (∃ last, buildSets grammar tokens earlier current (totalSize earlier) =
        .error (.rejected last) ∧
      last < labels.length ∧ (∀ item, ¬ Reached grammar start labels (last + 1) item) ∧
      (earlier.size < last → ∃ item, Reached grammar start labels last item)) ∨
    (∃ sets, buildSets grammar tokens earlier current (totalSize earlier) =
        .error (.tooLarge (totalSize sets)) ∧
      AllExact grammar start labels sets ∧ sets.size ≤ labels.length + 1 ∧
      Limits.chartItems < totalSize sets) := by
  induction tokens generalizing earlier current with
  | nil =>
      have hend : earlier.size = labels.length :=
        Nat.le_antisymm hle (List.drop_eq_nil_iff.mp hdrop)
      have htoken : (none : Option Token).map Token.kind = labels[earlier.size]? := by
        rw [hend, List.getElem?_eq_none (Nat.le_refl _)]
        rfl
      obtain ⟨hexact, -⟩ := closeSet_exact hearlier rfl htoken hseeded
      have hall := allExact_push hearlier hexact
      simp only [buildSets]
      rw [← totalSize_push]
      split
      next hlarge => exact .inr (.inr ⟨_, rfl, hall, by simp [hend], hlarge⟩)
      next => exact .inl ⟨_, rfl, hall, by simp [hend], fun h => absurd h (by omega)⟩
  | cons token rest ih =>
      have hlabel : labels[earlier.size]? = some token.kind := by
        rw [← List.head?_drop, hdrop]
        rfl
      have hlt := (List.getElem?_eq_some_iff.mp hlabel).1
      have htoken : (some token).map Token.kind = labels[earlier.size]? := hlabel.symm
      obtain ⟨hexact, hnext⟩ := closeSet_exact hearlier rfl htoken hseeded
      have hall := allExact_push hearlier hexact
      simp only [buildSets]
      rw [← totalSize_push]
      generalize closeSet grammar (some token) earlier.size earlier current = result at *
      split
      next hlarge => exact .inr (.inr ⟨_, rfl, hall, by simp; omega, hlarge⟩)
      split
      next hempty =>
        refine .inr (.inl ⟨earlier.size, rfl, hlt, fun item hitem => ?_,
          fun h => absurd h (Nat.lt_irrefl _)⟩)
        obtain ⟨before, label, hbefore, hterminal, hlabel'⟩ := hitem.exists_scanned
        have hmem := hnext.scanned rfl hbefore hterminal hlabel'
        rw [Array.isEmpty_iff.mp hempty] at hmem
        exact Array.not_mem_empty _ hmem
      next hfull =>
        obtain ⟨item, hitem⟩ : ∃ item, item ∈ result.2.items :=
          Array.exists_mem_of_ne_empty _ fun h => hfull (Array.isEmpty_iff.mpr h)
        have hreached := hnext.sound item hitem
        -- The token was scanned, so the rest begins with one exact set more.
        have hsize : (earlier.push result.1).size = earlier.size + 1 := Array.size_push ..
        have hrest : labels.drop (earlier.push result.1).size = rest.map Token.kind := by
          rw [hsize, ← List.drop_drop, hdrop]
          rfl
        rcases ih hall (hsize ▸ hnext) hrest (by omega) with
          ⟨sets, hsets, hexact', hlength, hlast⟩ | ⟨last, hlast, hlt', hnone, hsome⟩ |
          ⟨sets, hsets, hexact', hlength, hlarge⟩
        · refine .inl ⟨sets, hsets, hexact', hlength, fun _ => ?_⟩
          rcases Nat.lt_or_ge (earlier.size + 1) labels.length with hmore | hend
          · exact hlast (by omega)
          · have hend' : labels.length = earlier.size + 1 := by omega
            exact ⟨item, hend' ▸ hreached⟩
        · refine .inr (.inl ⟨last, hlast, hlt', hnone, fun hbefore => ?_⟩)
          rcases Nat.lt_or_ge (earlier.size + 1) last with hmore | hend
          · exact hsome (by omega)
          · obtain rfl : last = earlier.size + 1 := by omega
            exact ⟨item, hreached⟩
        · exact .inr (.inr ⟨sets, hsets, hexact', hlength, hlarge⟩)

/-- A chart that knows what is reached at every position. -/
def Faithful (chart : Chart) (labels : List String) : Prop :=
  chart.tokenCount = labels.length ∧
    ∀ position item, chart.contains position item = true ↔
      Reached chart.grammar chart.start labels position item

theorem faithful_of_allExact {sets : Array ItemSet}
    (hexact : AllExact grammar start labels sets) (hsize : sets.size = labels.length + 1) :
    Faithful ⟨grammar, start, sets, labels.length⟩ labels := by
  refine ⟨rfl, fun position item => ?_⟩
  simp only [contains]
  cases hset : sets[position]? with
  | some set => exact (ItemSet.contains_iff set item).trans ((hexact _ _ hset).2 item)
  | none =>
      have hge := Array.getElem?_eq_none_iff.mp hset
      constructor
      · intro h
        cases h
      · intro h
        have hle := h.holds.2.1
        omega

/-- The alternatives that a faithful chart lists for a span are those that are
complete over it. -/
theorem mem_completed {chart : Chart} (hfaithful : chart.Faithful labels) {rule : Rule}
    {id first last : Nat} :
    id ∈ chart.completed rule first last ↔
      ∃ production, chart.grammar.production? id = some production ∧ production.lhs = rule ∧
        Reached chart.grammar chart.start labels last ⟨id, production.length, first⟩ := by
  rw [completed, List.mem_filter, Grammar.mem_alternatives]
  constructor
  · rintro ⟨⟨production, hproduction, hlhs⟩, hcontains⟩
    rw [hproduction] at hcontains
    exact ⟨production, hproduction, hlhs, (hfaithful.2 _ _).mp hcontains⟩
  · rintro ⟨production, hproduction, hlhs, hreached⟩
    refine ⟨⟨production, hproduction, hlhs⟩, ?_⟩
    rw [hproduction]
    exact (hfaithful.2 _ _).mpr hreached

theorem isAccepted_iff {chart : Chart} (hfaithful : chart.Faithful labels) :
    chart.isAccepted = true ↔ chart.grammar.Generates chart.start labels := by
  have hsome : chart.isAccepted = true ↔
      ∃ id, id ∈ chart.completed chart.start 0 chart.tokenCount := by
    rw [isAccepted, Bool.not_eq_true', List.isEmpty_eq_false_iff_exists_mem]
  rw [hsome, generates_iff_reached, hfaithful.1]
  constructor
  · rintro ⟨id, hid⟩
    obtain ⟨production, hproduction, hlhs, hreached⟩ := (mem_completed hfaithful).mp hid
    exact ⟨id, Grammar.mem_alternatives.mpr ⟨production, hproduction, hlhs⟩, production,
      hproduction, hreached⟩
  · rintro ⟨id, hid, production, hproduction, hreached⟩
    have hlhs := Grammar.lhs_of_mem_alternatives hid hproduction
    exact ⟨id, (mem_completed hfaithful).mpr ⟨production, hproduction, hlhs, hreached⟩⟩

/-- A position that recognition stops at: nothing is reached after it, or it is
the last one of an utterance that is gone through without being complete. -/
def StopsAt (grammar : Grammar) (start : Rule) (labels : List String) (last : Nat) : Prop :=
  (last < labels.length ∧ (∀ item, ¬ Reached grammar start labels (last + 1) item) ∧
    (0 < last → ∃ item, Reached grammar start labels last item)) ∨
  (last = labels.length - 1 ∧
    (0 < labels.length → ∃ item, Reached grammar start labels labels.length item))

/-- Building a chart ends in one of three ways: with a faithful chart of an
utterance that the start symbol derives, at the position where recognition
stops if it does not, or with sets that are too large. -/
theorem build_cases (grammar : Grammar) (start : Rule) (tokens : List Token) :
    (∃ chart, build grammar start tokens = .ok chart ∧ chart.grammar = grammar ∧
      chart.start = start ∧ chart.Faithful (tokens.map Token.kind) ∧
      grammar.Generates start (tokens.map Token.kind)) ∨
    (∃ last, build grammar start tokens = .error (.rejected last) ∧
      StopsAt grammar start (tokens.map Token.kind) last ∧
      ¬ grammar.Generates start (tokens.map Token.kind)) ∨
    (∃ sets, build grammar start tokens = .error (.tooLarge (totalSize sets)) ∧
      AllExact grammar start (tokens.map Token.kind) sets ∧ sets.size ≤ tokens.length + 1 ∧
      Limits.chartItems < totalSize sets) := by
  have hlength : (tokens.map Token.kind).length = tokens.length := List.length_map ..
  have hempty : AllExact grammar start (tokens.map Token.kind) #[] := by
    intro position set hset
    cases hset
  have hcases := buildSets_cases tokens hempty (seeded_start grammar start _) rfl (Nat.zero_le _)
  rw [show totalSize #[] = 0 from rfl] at hcases
  rcases hcases with
    ⟨sets, hsets, hexact, hsize, hlast⟩ | ⟨last, hlast, hlt, hnone, hsome⟩ |
    ⟨sets, hsets, hexact, hsize, hlarge⟩
  · have hfaithful := faithful_of_allExact hexact hsize
    have haccepted := isAccepted_iff hfaithful
    rw [hlength] at hfaithful haccepted
    have hbuild : build grammar start tokens =
        if (Chart.mk grammar start sets tokens.length).isAccepted then
          .ok ⟨grammar, start, sets, tokens.length⟩
        else .error (.rejected (tokens.length - 1)) := by
      rw [build, hsets]
      rfl
    rw [hbuild]
    split
    next h => exact .inl ⟨_, rfl, rfl, rfl, hfaithful, haccepted.mp h⟩
    next h =>
      exact .inr (.inl ⟨_, rfl, .inr ⟨by rw [hlength], hlast⟩,
        fun hgenerates => h (haccepted.mpr hgenerates)⟩)
  · refine .inr (.inl ⟨last, ?_, .inl ⟨hlt, hnone, hsome⟩, fun hgenerates => ?_⟩)
    · rw [build, hlast]
      rfl
    · obtain ⟨id, -, production, -, hreached⟩ := generates_iff_reached.mp hgenerates
      obtain ⟨item, hitem⟩ := hreached.exists_earlier hlt
      exact hnone item hitem
  · refine .inr (.inr ⟨sets, ?_, hexact, by rw [hlength] at hsize; exact hsize, hlarge⟩)
    rw [build, hsets]
    rfl

/-- A chart that is built is faithful, and the start symbol derives the labels. -/
theorem faithful_of_build {tokens : List Token} {chart : Chart}
    (h : build grammar start tokens = .ok chart) :
    chart.grammar = grammar ∧ chart.start = start ∧ chart.Faithful (tokens.map Token.kind) ∧
      grammar.Generates start (tokens.map Token.kind) := by
  rcases build_cases grammar start tokens with
    ⟨built, hbuilt, hparts⟩ | ⟨last, hlast, -⟩ | ⟨sets, hsets, -⟩
  · rw [hbuilt] at h
    cases h
    exact hparts
  · rw [hlast] at h
    cases h
  · rw [hsets] at h
    cases h

end SpokenKeys.Chart
