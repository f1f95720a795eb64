import Mathlib.Data.List.Forall2
import SpokenKeys.Grammar.Language

/-!
Basic facts about derivable lists of labels: how a derivation from several
symbols divides its labels, which pieces of an utterance the positions of a
chart stand for, and how the lookups of a grammar relate to its table.
-/

namespace SpokenKeys

/-- What is related to a list place by place divides where the list does. -/
theorem exists_append_of_forall₂ {α β : Type} {related : α → β → Prop} {first second : List α}
    {whole : List β} (h : List.Forall₂ related (first ++ second) whole) :
    ∃ front back, front ++ back = whole ∧ List.Forall₂ related first front ∧
      List.Forall₂ related second back :=
  ⟨_, _, List.take_append_drop first.length whole,
    (List.forall₂_take_append _ _ _ h.flip).flip, (List.forall₂_drop_append _ _ _ h.flip).flip⟩

/-- The labels between two positions. -/
def span (labels : List String) (start stop : Nat) : List String :=
  (labels.take stop).drop start

@[simp] theorem span_self (labels : List String) (position : Nat) :
    span labels position position = [] := by
  simp [span]

@[simp] theorem span_zero (labels : List String) (stop : Nat) :
    span labels 0 stop = labels.take stop := rfl

theorem span_length (labels : List String) (start stop : Nat) :
    (span labels start stop).length = min stop labels.length - start := by
  simp [span]

theorem span_head? (labels : List String) {start stop : Nat} (h : start < stop) :
    (span labels start stop).head? = labels[start]? := by
  rw [span, List.head?_drop, List.getElem?_take_of_lt h]

/-- Labels that stand at a position are the span from there over their length. -/
theorem span_of_drop {labels front back : List String} {start : Nat}
    (h : labels.drop start = front ++ back) :
    span labels start (start + front.length) = front := by
  rw [span, List.drop_take, h, Nat.add_sub_cancel_left, List.take_left']
  rfl

theorem span_append_drop (labels : List String) {start stop : Nat} (h : start ≤ stop) :
    span labels start stop ++ labels.drop stop = labels.drop start := by
  rw [span, List.drop_take]
  have hstop : labels.drop stop = (labels.drop start).drop (stop - start) := by
    rw [List.drop_drop]
    congr 1
    omega
  rw [hstop, List.take_append_drop]

/-- Adjacent spans make one. -/
theorem span_append (labels : List String) {start middle stop : Nat}
    (hfirst : start ≤ middle) (hsecond : middle ≤ stop) :
    span labels start middle ++ span labels middle stop = span labels start stop := by
  have hmiddle : span labels start middle =
      ((labels.take stop).take middle).drop start := by
    rw [span, List.take_take, Nat.min_eq_left hsecond]
  rw [hmiddle, ← span, span, span]
  exact span_append_drop (labels.take stop) hfirst

theorem take_append_span (labels : List String) {start stop : Nat} (h : start ≤ stop) :
    labels.take start ++ span labels start stop = labels.take stop := by
  rw [← span_zero, ← span_zero, span_append labels (Nat.zero_le start) h]

theorem span_succ {labels : List String} {position : Nat} {label : String}
    (h : labels[position]? = some label) :
    span labels position (position + 1) = [label] := by
  obtain ⟨hlt, rfl⟩ := List.getElem?_eq_some_iff.mp h
  have hdrop : labels.drop position = [labels[position]] ++ labels.drop (position + 1) :=
    List.drop_eq_getElem_cons hlt
  exact span_of_drop hdrop

namespace Derives

variable {table : List Production} {rule : Rule} {symbols first second : List Symbol}
  {labels front back : List String}

theorem nil_iff : Derives table [] labels ↔ labels = [] := by
  constructor
  · intro h
    cases h
    rfl
  · rintro rfl
    exact .nil

theorem terminal_iff {label : String} :
    Derives table (.terminal label :: symbols) labels ↔
      ∃ rest, labels = label :: rest ∧ Derives table symbols rest := by
  constructor
  · intro h
    cases h with
    | terminal hrest => exact ⟨_, rfl, hrest⟩
  · rintro ⟨rest, rfl, hrest⟩
    exact .terminal hrest

theorem rule_iff :
    Derives table (.rule rule :: symbols) labels ↔
      ∃ production ∈ table, production.lhs = rule ∧
        ∃ front back, labels = front ++ back ∧
          Derives table production.rhs front ∧ Derives table symbols back := by
  constructor
  · intro h
    cases h with
    | rule hmem hinner hrest => exact ⟨_, hmem, rfl, _, _, rfl, hinner, hrest⟩
  · rintro ⟨production, hmem, rfl, front, back, rfl, hinner, hrest⟩
    exact .rule hmem hinner hrest

/-- Several symbols divide what they derive. -/
theorem append_iff :
    Derives table (first ++ second) labels ↔
      ∃ front back, labels = front ++ back ∧
        Derives table first front ∧ Derives table second back := by
  constructor
  · intro h
    induction first generalizing labels with
    | nil => exact ⟨[], labels, rfl, .nil, h⟩
    | cons symbol rest ih =>
        cases symbol with
        | terminal label =>
            obtain ⟨after, rfl, hafter⟩ := terminal_iff.mp h
            obtain ⟨front, back, rfl, hfront, hback⟩ := ih hafter
            exact ⟨label :: front, back, rfl, .terminal hfront, hback⟩
        | rule name =>
            obtain ⟨production, hmem, rfl, inner, after, rfl, hinner, hafter⟩ := rule_iff.mp h
            obtain ⟨front, back, rfl, hfront, hback⟩ := ih hafter
            exact ⟨inner ++ front, back, (List.append_assoc ..).symm,
              .rule hmem hinner hfront, hback⟩
  · rintro ⟨front, back, rfl, hfront, hback⟩
    exact hfront.append hback

theorem cons_iff {symbol : Symbol} :
    Derives table (symbol :: symbols) labels ↔
      ∃ front back, labels = front ++ back ∧
        Derives table [symbol] front ∧ Derives table symbols back := by
  rw [← append_iff, List.singleton_append]

theorem single_iff :
    Derives table [.rule rule] labels ↔
      ∃ production ∈ table, production.lhs = rule ∧ Derives table production.rhs labels := by
  rw [rule_iff]
  constructor
  · rintro ⟨production, hmem, hlhs, front, back, rfl, hinner, hback⟩
    rw [nil_iff.mp hback, List.append_nil]
    exact ⟨production, hmem, hlhs, hinner⟩
  · rintro ⟨production, hmem, hlhs, hinner⟩
    exact ⟨production, hmem, hlhs, labels, [], (List.append_nil _).symm, hinner, .nil⟩

theorem single_terminal_iff {label : String} :
    Derives table [.terminal label] labels ↔ labels = [label] := by
  rw [terminal_iff]
  constructor
  · rintro ⟨rest, rfl, hrest⟩
    rw [nil_iff.mp hrest]
  · rintro rfl
    exact ⟨[], rfl, .nil⟩

theorem append_span {start middle stop : Nat} (hfirst : start ≤ middle)
    (hsecond : middle ≤ stop) (hfront : Derives table first (span labels start middle))
    (hback : Derives table second (span labels middle stop)) :
    Derives table (first ++ second) (span labels start stop) := by
  rw [← span_append labels hfirst hsecond]
  exact hfront.append hback

/-- Terminals derive their labels, and nothing else. -/
theorem terminals_iff {words : List String} :
    Derives table (words.map .terminal) labels ↔ labels = words := by
  induction words generalizing labels with
  | nil => exact nil_iff
  | cons word rest ih =>
      rw [List.map_cons, terminal_iff]
      constructor
      · rintro ⟨after, rfl, hafter⟩
        rw [ih.mp hafter]
      · rintro rfl
        exact ⟨rest, rfl, ih.mpr rfl⟩

/-- A property that productions hand on from their left-hand side to all that is
on the right, and that symbols have, is one of every label that they derive. -/
theorem forall_of_closed {keeps : Symbol → Bool}
    (hclosed : ∀ production ∈ table, keeps (.rule production.lhs) = true →
      production.rhs.all keeps = true)
    (h : Derives table symbols labels) (hsymbols : symbols.all keeps = true) :
    ∀ label ∈ labels, keeps (.terminal label) = true := by
  induction h with
  | nil => simp
  | terminal _ ih =>
      rw [List.all_cons, Bool.and_eq_true] at hsymbols
      exact List.forall_mem_cons.mpr ⟨hsymbols.1, ih hsymbols.2⟩
  | rule hmem _ _ ihinner ihrest =>
      rw [List.all_cons, Bool.and_eq_true] at hsymbols
      exact List.forall_mem_append.mpr
        ⟨ihinner (hclosed _ hmem hsymbols.1), ihrest hsymbols.2⟩

end Derives

namespace Grammar

variable {grammar : Grammar} {rule : Rule}

@[simp] theorem table_ofProductions (productions : List Production) :
    (ofProductions productions).table = productions := by
  simp [table, ofProductions]

theorem production?_eq (grammar : Grammar) (id : Nat) :
    grammar.production? id = grammar.table[id]? := by
  simp [production?, table]

/-- The alternatives of a nonterminal are the numbers of its productions. -/
theorem mem_alternatives {id : Nat} :
    id ∈ grammar.alternatives rule ↔
      ∃ production, grammar.production? id = some production ∧ production.lhs = rule := by
  rw [alternatives_eq, alternativesIn, production?_eq]
  simp only [List.mem_map, List.mem_filter, Prod.exists, beq_iff_eq]
  constructor
  · rintro ⟨production, number, ⟨hmem, hlhs⟩, rfl⟩
    exact ⟨production, List.mem_zipIdx_iff_getElem?.mp hmem, hlhs⟩
  · rintro ⟨production, hget, hlhs⟩
    exact ⟨production, id, ⟨List.mem_zipIdx_iff_getElem?.mpr hget, hlhs⟩, rfl⟩

theorem lhs_of_mem_alternatives {id : Nat} {production : Production}
    (hid : id ∈ grammar.alternatives rule)
    (hproduction : grammar.production? id = some production) : production.lhs = rule := by
  obtain ⟨other, hother, hlhs⟩ := mem_alternatives.mp hid
  rw [hproduction] at hother
  cases hother
  exact hlhs

theorem mem_table_of_production? {id : Nat} {production : Production}
    (h : grammar.production? id = some production) : production ∈ grammar.table :=
  List.mem_of_getElem? (production?_eq grammar id ▸ h)

/-- Every production of the table is an alternative of its left-hand side. -/
theorem exists_alternative {production : Production} (h : production ∈ grammar.table) :
    ∃ id ∈ grammar.alternatives production.lhs, grammar.production? id = some production := by
  obtain ⟨id, hid⟩ := List.mem_iff_getElem?.mp h
  rw [← production?_eq] at hid
  exact ⟨id, mem_alternatives.mpr ⟨production, hid, rfl⟩, hid⟩

/-- The alternatives are listed in the order of the table. -/
theorem alternatives_sorted (grammar : Grammar) (rule : Rule) :
    (grammar.alternatives rule).Pairwise (· < ·) := by
  rw [alternatives_eq, alternativesIn]
  have hsorted : (grammar.table.zipIdx.map Prod.snd).Pairwise (· < ·) := by
    simp [List.zipIdx_map_snd, List.pairwise_lt_range']
  exact hsorted.sublist (List.filter_sublist.map Prod.snd)

end Grammar

end SpokenKeys
