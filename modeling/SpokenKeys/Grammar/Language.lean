import SpokenKeys.Grammar.Basic

/-!
The language of a grammar: which lists of labels its nonterminals derive. This is
said of the table alone, without the lookups and the chart.
-/

namespace SpokenKeys

/-- Symbols derive labels by a table: a terminal derives itself, and a
nonterminal what one of its productions derives. -/
inductive Derives (table : List Production) : List Symbol → List String → Prop where
  | nil : Derives table [] []
  | terminal {label : String} {symbols : List Symbol} {labels : List String} :
      Derives table symbols labels →
      Derives table (.terminal label :: symbols) (label :: labels)
  | rule {production : Production} {symbols : List Symbol} {inner labels : List String} :
      production ∈ table →
      Derives table production.rhs inner →
      Derives table symbols labels →
      Derives table (.rule production.lhs :: symbols) (inner ++ labels)

/-- What two lists of symbols derive, they derive one after the other. -/
theorem Derives.append {table : List Production} {first second : List Symbol}
    {front back : List String} (hfirst : Derives table first front)
    (hsecond : Derives table second back) :
    Derives table (first ++ second) (front ++ back) := by
  induction hfirst with
  | nil => exact hsecond
  | terminal _ ih => exact .terminal ih
  | rule hmem hinner _ _ ih =>
      rw [List.append_assoc]
      exact .rule hmem hinner ih

namespace Grammar

/-- The nonterminal derives the labels. -/
def Generates (grammar : Grammar) (rule : Rule) (labels : List String) : Prop :=
  Derives grammar.table [.rule rule] labels

/-- The labels begin something that the nonterminal derives. -/
def Begins (grammar : Grammar) (rule : Rule) (labels : List String) : Prop :=
  ∃ rest, grammar.Generates rule (labels ++ rest)

/-- A nonterminal derives what one of its productions does, and nothing else. -/
theorem generates_iff (grammar : Grammar) (rule : Rule) (labels : List String) :
    grammar.Generates rule labels ↔
      ∃ production ∈ grammar.table, production.lhs = rule ∧
        Derives grammar.table production.rhs labels := by
  constructor
  · intro h
    rw [Generates] at h
    generalize hsymbols : [Symbol.rule rule] = symbols at h
    cases h with
    | nil => simp at hsymbols
    | terminal => simp at hsymbols
    | @rule production symbols inner rest hmem hinner hrest =>
        simp only [List.cons.injEq, Symbol.rule.injEq] at hsymbols
        obtain ⟨rfl, rfl⟩ := hsymbols
        cases hrest
        rw [List.append_nil]
        exact ⟨production, hmem, rfl, hinner⟩
  · rintro ⟨production, hmem, rfl, hinner⟩
    rw [Generates, ← List.append_nil labels]
    exact .rule hmem hinner .nil

end Grammar

end SpokenKeys
