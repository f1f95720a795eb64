import SpokenKeys.Chart.Basic
import SpokenKeys.Proofs.Language

/-!
Which items belong to the positions of an utterance, said by rules instead of
by the loop that collects them. An item is reached exactly when the symbols
before its mark derive the labels from its origin and its production can be
called for there; so the last position knows whether the utterance is derived,
and a position without items knows that no sentence begins as the utterance
does.
-/

namespace SpokenKeys.Chart

/-- An item is reached at a position: it begins the start symbol, it is called
for by an item before a nonterminal, or it moves past a label or past a
nonterminal that is complete. -/
inductive Reached (grammar : Grammar) (start : Rule) (labels : List String) :
    Nat → Item → Prop where
  | start {id : Nat} :
      id ∈ grammar.alternatives start → Reached grammar start labels 0 ⟨id, 0, 0⟩
  | predict {position id : Nat} {item : Item} {rule : Rule} :
      Reached grammar start labels position item →
      nextSymbol? grammar item = some (.rule rule) →
      id ∈ grammar.alternatives rule →
      Reached grammar start labels position ⟨id, 0, position⟩
  | scan {position : Nat} {item : Item} {label : String} :
      Reached grammar start labels position item →
      nextSymbol? grammar item = some (.terminal label) →
      labels[position]? = some label →
      Reached grammar start labels (position + 1) item.advance
  | complete {position : Nat} {done waiting : Item} {production : Production} :
      Reached grammar start labels position done →
      grammar.production? done.production = some production →
      done.dot = production.length →
      Reached grammar start labels done.origin waiting →
      nextSymbol? grammar waiting = some (.rule production.lhs) →
      Reached grammar start labels position waiting.advance

/-- What an item says in the set of a position: the symbols before its mark
derive the labels from its origin. -/
def Holds (grammar : Grammar) (labels : List String) (position : Nat) (item : Item) : Prop :=
  item.origin ≤ position ∧ position ≤ labels.length ∧
    ∃ production, grammar.production? item.production = some production ∧
      item.dot ≤ production.length ∧
      Derives grammar.table (production.rhs.take item.dot) (span labels item.origin position)

variable {grammar : Grammar} {start rule : Rule} {labels : List String} {position : Nat}
  {item : Item} {production : Production} {symbol : Symbol}

theorem nextSymbol?_eq_some :
    nextSymbol? grammar item = some symbol ↔
      ∃ production, grammar.production? item.production = some production ∧
        production.rhs[item.dot]? = some symbol := by
  simp [nextSymbol?, Option.bind_eq_some_iff]

theorem take_advance (hsymbol : production.rhs[item.dot]? = some symbol) :
    production.rhs.take item.advance.dot = production.rhs.take item.dot ++ [symbol] := by
  rw [Item.advance, List.take_add_one, hsymbol]
  rfl

theorem advance_dot_le (hsymbol : production.rhs[item.dot]? = some symbol) :
    item.advance.dot ≤ production.length :=
  (List.getElem?_eq_some_iff.mp hsymbol).1

theorem Holds.of_production (hholds : Holds grammar labels position item)
    (hproduction : grammar.production? item.production = some production) :
    item.dot ≤ production.length ∧
      Derives grammar.table (production.rhs.take item.dot) (span labels item.origin position) := by
  obtain ⟨-, -, other, hother, hspan⟩ := hholds
  rw [hproduction] at hother
  cases hother
  exact hspan

/-- A mark moves past a symbol that derives the labels in between. -/
theorem Holds.advance {stop : Nat} (hholds : Holds grammar labels position item)
    (hnext : nextSymbol? grammar item = some symbol) (hle : position ≤ stop)
    (hstop : stop ≤ labels.length)
    (hderives : Derives grammar.table [symbol] (span labels position stop)) :
    Holds grammar labels stop item.advance := by
  obtain ⟨production, hproduction, hsymbol⟩ := nextSymbol?_eq_some.mp hnext
  obtain ⟨-, hfront⟩ := hholds.of_production hproduction
  refine ⟨Nat.le_trans hholds.1 hle, hstop, production, hproduction, advance_dot_le hsymbol, ?_⟩
  rw [take_advance hsymbol]
  exact Derives.append_span hholds.1 hle hfront hderives

theorem holds_fresh {id : Nat} (hid : id ∈ grammar.alternatives rule)
    (hposition : position ≤ labels.length) : Holds grammar labels position ⟨id, 0, position⟩ := by
  obtain ⟨production, hproduction, -⟩ := Grammar.mem_alternatives.mp hid
  refine ⟨Nat.le_refl _, hposition, production, hproduction, Nat.zero_le _, ?_⟩
  rw [span_self]
  exact .nil

theorem Holds.derives_rhs (hholds : Holds grammar labels position item)
    (hproduction : grammar.production? item.production = some production)
    (hdot : item.dot = production.length) :
    Derives grammar.table production.rhs (span labels item.origin position) := by
  obtain ⟨-, hfront⟩ := hholds.of_production hproduction
  rwa [hdot, Production.length, List.take_length] at hfront

theorem Holds.derives_lhs (hholds : Holds grammar labels position item)
    (hproduction : grammar.production? item.production = some production)
    (hdot : item.dot = production.length) :
    Derives grammar.table [.rule production.lhs] (span labels item.origin position) :=
  Derives.single_iff.mpr ⟨production, Grammar.mem_table_of_production? hproduction, rfl,
    hholds.derives_rhs hproduction hdot⟩

namespace Reached

theorem holds (h : Reached grammar start labels position item) :
    Holds grammar labels position item := by
  induction h with
  | start hid => exact holds_fresh hid (Nat.zero_le _)
  | predict _ _ hid ih => exact holds_fresh hid ih.2.1
  | scan _ hnext hlabel ih =>
      have hlt := (List.getElem?_eq_some_iff.mp hlabel).1
      apply ih.advance hnext (Nat.le_succ _) hlt
      rw [span_succ hlabel]
      exact .terminal .nil
  | complete _ hproduction hdot _ hnext ihdone ihwaiting =>
      exact ihwaiting.advance hnext ihdone.1 ihdone.2.1 (ihdone.derives_lhs hproduction hdot)

theorem origin_le (h : Reached grammar start labels position item) : item.origin ≤ position :=
  h.holds.1

/-- From a reached item the mark moves past any symbols that derive the labels
at hand. The induction is on the derivation: a nonterminal is predicted, its
production is gone through, and the waiting item moves past it. -/
theorem extend {symbols rest : List Symbol} {front back : List String}
    (hderives : Derives grammar.table symbols front)
    (h : Reached grammar start labels position item)
    (hproduction : grammar.production? item.production = some production)
    (hrhs : production.rhs.drop item.dot = symbols ++ rest)
    (hlabels : labels.drop position = front ++ back) :
    Reached grammar start labels (position + front.length)
      ⟨item.production, item.dot + symbols.length, item.origin⟩ := by
  induction hderives generalizing position item production rest back with
  | nil => exact h
  | @terminal label symbols front _ ih =>
      have hsymbol : production.rhs[item.dot]? = some (.terminal label) := by
        rw [← List.head?_drop, hrhs]
        rfl
      have hlabel : labels[position]? = some label := by
        rw [← List.head?_drop, hlabels]
        rfl
      have hnext : nextSymbol? grammar item = some (.terminal label) :=
        nextSymbol?_eq_some.mpr ⟨production, hproduction, hsymbol⟩
      have hmoved := ih (h.scan hnext hlabel) hproduction
        (show production.rhs.drop (item.dot + 1) = symbols ++ rest by
          rw [← List.drop_drop, hrhs]
          rfl)
        (show labels.drop (position + 1) = front ++ back by
          rw [← List.drop_drop, hlabels]
          rfl)
      simpa [Item.advance, Nat.add_assoc, Nat.add_comm, Nat.add_left_comm] using hmoved
  | @rule inner symbols front' after hmem _ _ ihinner ihrest =>
      have hsymbol : production.rhs[item.dot]? = some (.rule inner.lhs) := by
        rw [← List.head?_drop, hrhs]
        rfl
      have hnext : nextSymbol? grammar item = some (.rule inner.lhs) :=
        nextSymbol?_eq_some.mpr ⟨production, hproduction, hsymbol⟩
      obtain ⟨id, hid, hinner⟩ := Grammar.exists_alternative hmem
      have hdone := ihinner (h.predict hnext hid) hinner (List.append_nil _).symm
        (hlabels.trans (List.append_assoc ..))
      have hwaiting := Reached.complete hdone hinner (Nat.zero_add _) h hnext
      have hmoved := ihrest hwaiting hproduction
        (show production.rhs.drop (item.dot + 1) = symbols ++ rest by
          rw [← List.drop_drop, hrhs]
          rfl)
        (show labels.drop (position + front'.length) = after ++ back by
          rw [← List.drop_drop, hlabels, List.append_assoc, List.drop_left'  rfl])
      simpa [Item.advance, Nat.add_assoc, Nat.add_comm, Nat.add_left_comm] using hmoved

/-- A nonterminal before the mark that derives the labels up to a position is
complete there. -/
theorem complete_rule {stop : Nat} (h : Reached grammar start labels position item)
    (hnext : nextSymbol? grammar item = some (.rule rule)) (hle : position ≤ stop)
    (hstop : stop ≤ labels.length)
    (hderives : Derives grammar.table [.rule rule] (span labels position stop)) :
    ∃ id ∈ grammar.alternatives rule, ∃ production,
      grammar.production? id = some production ∧
        Reached grammar start labels stop ⟨id, production.length, position⟩ := by
  obtain ⟨production, hmem, rfl, hinner⟩ := Derives.single_iff.mp hderives
  obtain ⟨id, hid, hproduction⟩ := Grammar.exists_alternative hmem
  have hmoved := extend hinner (h.predict hnext hid) hproduction (List.append_nil _).symm
    (span_append_drop labels hle).symm
  have hlength : position + (span labels position stop).length = stop := by
    rw [span_length]
    omega
  rw [hlength, Nat.zero_add] at hmoved
  exact ⟨id, hid, production, hproduction, hmoved⟩

/-- Labels beyond a position have no part in what is reached there. -/
theorem of_take_eq {other : List String} (h : Reached grammar start labels position item)
    (htake : labels.take position = other.take position) :
    Reached grammar start other position item := by
  induction h with
  | start hid => exact .start hid
  | predict _ hnext hid ih => exact (ih htake).predict hnext hid
  | @scan position item label _ hnext hlabel ih =>
      have hshorter : labels.take position = other.take position := by
        have := congrArg (List.take position) htake
        simpa [List.take_take] using this
      have hother : other[position]? = some label := by
        have := congrArg (·[position]?) htake
        simpa [List.getElem?_take_of_lt, hlabel] using this.symm
      exact (ih hshorter).scan hnext hother
  | @complete position done waiting production hdone hproduction hdot _ hnext ihdone ihwaiting =>
      have hshorter : labels.take done.origin = other.take done.origin := by
        have := congrArg (List.take done.origin) htake
        simpa [List.take_take, Nat.min_eq_left hdone.origin_le] using this
      exact (ihdone htake).complete hproduction hdot (ihwaiting hshorter) hnext

/-- Where something is reached, something is reached at every earlier position. -/
theorem exists_earlier {earlier : Nat} (h : Reached grammar start labels position item)
    (hle : earlier ≤ position) : ∃ other, Reached grammar start labels earlier other := by
  induction h with
  | start hid =>
      obtain rfl : earlier = 0 := Nat.le_zero.mp hle
      exact ⟨_, .start hid⟩
  | predict _ _ _ ih => exact ih hle
  | scan hitem hnext hlabel ih =>
      rcases Nat.lt_or_eq_of_le hle with hlt | rfl
      · exact ih (Nat.le_of_lt_succ hlt)
      · exact ⟨_, hitem.scan hnext hlabel⟩
  | complete _ _ _ _ _ ihdone => exact ihdone hle

/-- Whatever is reached after a label, some item moved past the label. -/
theorem exists_scanned (h : Reached grammar start labels (position + 1) item) :
    ∃ before label, Reached grammar start labels position before ∧
      nextSymbol? grammar before = some (.terminal label) ∧ labels[position]? = some label := by
  generalize hplace : position + 1 = place at h
  induction h with
  | start => cases hplace
  | predict _ _ _ ih => exact ih hplace
  | scan hitem hnext hlabel =>
      cases hplace
      exact ⟨_, _, hitem, hnext, hlabel⟩
  | complete _ _ _ _ _ ihdone => exact ihdone hplace

end Reached

/-- The start symbol derives the labels exactly when one of its alternatives is
complete over all of them. -/
theorem generates_iff_reached :
    grammar.Generates start labels ↔
      ∃ id ∈ grammar.alternatives start, ∃ production,
        grammar.production? id = some production ∧
          Reached grammar start labels labels.length ⟨id, production.length, 0⟩ := by
  constructor
  · intro h
    obtain ⟨production, hmem, rfl, hinner⟩ := Derives.single_iff.mp h
    obtain ⟨id, hid, hproduction⟩ := Grammar.exists_alternative hmem
    have hmoved := Reached.extend hinner (.start hid) hproduction (List.append_nil _).symm
      (show labels.drop 0 = labels ++ [] from (List.append_nil _).symm)
    rw [Nat.zero_add, Nat.zero_add] at hmoved
    exact ⟨id, hid, production, hproduction, hmoved⟩
  · rintro ⟨id, hid, production, hproduction, hreached⟩
    have hderives := hreached.holds.derives_lhs hproduction rfl
    rw [Grammar.lhs_of_mem_alternatives hid hproduction] at hderives
    simpa [Grammar.Generates] using hderives

/-- Every nonterminal derives something. -/
def Productive (grammar : Grammar) : Prop :=
  ∀ rule, ∃ labels, grammar.Generates rule labels

/-- A nonterminal can stand after the labels in something that the start symbol
derives. -/
def Embeds (grammar : Grammar) (start : Rule) (front : List String) (rule : Rule) : Prop :=
  ∃ back, ∀ inner, grammar.Generates rule inner → grammar.Generates start (front ++ inner ++ back)

theorem exists_derives (symbols : List Symbol)
    (hrules : ∀ rule, .rule rule ∈ symbols → ∃ labels, grammar.Generates rule labels) :
    ∃ labels, Derives grammar.table symbols labels := by
  induction symbols with
  | nil => exact ⟨[], .nil⟩
  | cons symbol rest ih =>
      obtain ⟨back, hback⟩ := ih fun rule hmem => hrules rule (List.mem_cons_of_mem _ hmem)
      cases symbol with
      | terminal label => exact ⟨label :: back, .terminal hback⟩
      | rule rule =>
          obtain ⟨front, hfront⟩ := hrules rule List.mem_cons_self
          exact ⟨front ++ back, Derives.append hfront hback⟩

def isBelow (height : Rule → Nat) (limit : Nat) : Symbol → Bool
  | .terminal _ => true
  | .rule rule => decide (height rule < limit)

/-- Every nonterminal derives something if it has a production whose own
nonterminals are all of less height. -/
theorem productive_of_heights (height : Rule → Nat)
    (h : (Rule.all.all fun rule => grammar.table.any fun production =>
      production.lhs == rule && production.rhs.all (isBelow height (height rule))) = true) :
    Productive grammar := by
  intro rule
  generalize hlimit : height rule = limit
  induction limit using Nat.strongRecOn generalizing rule with
  | ind limit ih =>
      have hrule := List.all_eq_true.mp h rule (Rule.mem_all rule)
      obtain ⟨production, hmem, hproduction⟩ := List.any_eq_true.mp hrule
      rw [Bool.and_eq_true, beq_iff_eq, List.all_eq_true] at hproduction
      obtain ⟨hlhs, hbelow⟩ := hproduction
      obtain ⟨labels, hlabels⟩ : ∃ labels, Derives grammar.table production.rhs labels := by
        refine exists_derives _ fun inner hinner => ih (height inner) ?_ inner rfl
        have := hbelow _ hinner
        rw [isBelow, decide_eq_true_eq] at this
        omega
      exact ⟨labels, Derives.single_iff.mpr ⟨production, hmem, hlhs, hlabels⟩⟩

/-- Where every nonterminal derives something, the production of a reached item
can be called for at its origin. -/
theorem Reached.embeds (hproductive : Productive grammar)
    (h : Reached grammar start labels position item)
    (hproduction : grammar.production? item.production = some production) :
    Embeds grammar start (labels.take item.origin) production.lhs := by
  induction h generalizing production with
  | start hid =>
      have hlhs := Grammar.lhs_of_mem_alternatives hid hproduction
      exact ⟨[], fun inner hinner => by simpa [hlhs] using hinner⟩
  | @predict position id item rule hitem hnext hid ih =>
      have hlhs := Grammar.lhs_of_mem_alternatives hid hproduction
      obtain ⟨outer, houter, hsymbol⟩ := nextSymbol?_eq_some.mp hnext
      obtain ⟨back, hback⟩ := ih houter
      obtain ⟨-, hfront⟩ := hitem.holds.of_production houter
      -- The symbols of the calling production after the mark derive something too.
      obtain ⟨after, hafter⟩ := exists_derives (outer.rhs.drop (item.dot + 1))
        fun rule _ => hproductive rule
      refine ⟨after ++ back, fun inner hinner => ?_⟩
      have hrhs : outer.rhs =
          outer.rhs.take item.dot ++ ([.rule rule] ++ outer.rhs.drop (item.dot + 1)) := by
        obtain ⟨hlt, hget⟩ := List.getElem?_eq_some_iff.mp hsymbol
        rw [← hget, List.singleton_append, ← List.drop_eq_getElem_cons hlt, List.take_append_drop]
      have hcaller : grammar.Generates outer.lhs
          (span labels item.origin position ++ (inner ++ after)) := by
        refine Derives.single_iff.mpr
          ⟨outer, Grammar.mem_table_of_production? houter, rfl, ?_⟩
        rw [hrhs]
        exact hfront.append (Derives.append (hlhs ▸ hinner) hafter)
      have hsentence := hback _ hcaller
      simpa [← take_append_span labels hitem.origin_le, List.append_assoc] using hsentence
  | scan _ _ _ ih => exact ih hproduction
  | complete _ _ _ _ _ _ ihwaiting => exact ihwaiting hproduction

/-- Where every nonterminal derives something, labels that reach their end begin
a sentence. -/
theorem begins_of_reached (hproductive : Productive grammar)
    (h : Reached grammar start labels position item) :
    grammar.Begins start (labels.take position) := by
  obtain ⟨horigin, -, production, hproduction, -, hfront⟩ := h.holds
  obtain ⟨back, hback⟩ := h.embeds hproductive hproduction
  obtain ⟨after, hafter⟩ := exists_derives (production.rhs.drop item.dot)
    fun rule _ => hproductive rule
  have hwhole : grammar.Generates production.lhs (span labels item.origin position ++ after) := by
    refine Derives.single_iff.mpr
      ⟨production, Grammar.mem_table_of_production? hproduction, rfl, ?_⟩
    have := hfront.append hafter
    rwa [List.take_append_drop] at this
  refine ⟨after ++ back, ?_⟩
  simpa [← take_append_span labels horigin, List.append_assoc] using hback _ hwhole

/-- Labels that begin a sentence reach their end. -/
theorem reached_of_begins (hposition : position ≤ labels.length)
    (hbegins : grammar.Begins start (labels.take position)) :
    ∃ item, Reached grammar start labels position item := by
  obtain ⟨rest, hsentence⟩ := hbegins
  obtain ⟨id, -, production, -, hlast⟩ := generates_iff_reached.mp hsentence
  have hlength : (labels.take position).length = position := by simp [hposition]
  obtain ⟨item, hitem⟩ := hlast.exists_earlier
    (show position ≤ (labels.take position ++ rest).length by
      rw [List.length_append, hlength]
      omega)
  refine ⟨item, hitem.of_take_eq ?_⟩
  rw [List.take_left' hlength]

end SpokenKeys.Chart
