import Mathlib.Data.List.Nodup
import Mathlib.Logic.Function.Iterate
import SpokenKeys.Proofs.CommandOutline
import SpokenKeys.Proofs.Tokenizing
import SpokenKeys.Validation

/-!
What can be reached from a start symbol, and what that has to do with its sentences. A
search with a stack, sweeps over the table and the chains of right-hand sides come to the
same nonterminals. So the vocabulary of an entry point has every word of its sentences
and, where all nonterminals derive something, no other word; and a table passes its check
exactly if everything on a right-hand side is defined and nothing is out of reach.
-/

namespace SpokenKeys

/-- Right-hand sides lead from the start symbol to a nonterminal. -/
inductive Reaches (table : List Production) (start : Rule) : Rule → Prop where
  | refl : Reaches table start start
  | step {production : Production} {rule : Rule} :
      Reaches table start production.lhs → production ∈ table →
      .rule rule ∈ production.rhs → Reaches table start rule

/-- The nonterminal stands on one side of some production. -/
def Mentions (table : List Production) (rule : Rule) : Prop :=
  ∃ production ∈ table, production.lhs = rule ∨ .rule rule ∈ production.rhs

namespace Saturation

variable {table : List Production} {found : List Rule} {start rule : Rule}

theorem mem_rulesOf {symbols : List Symbol} : rule ∈ rulesOf symbols ↔ .rule rule ∈ symbols := by
  rw [rulesOf, List.mem_filterMap]
  constructor
  · rintro ⟨symbol, hmem, hsymbol⟩
    cases symbol with
    | terminal => cases hsymbol
    | rule =>
        cases hsymbol
        exact hmem
  · intro hmem
    exact ⟨.rule rule, hmem, rfl⟩

theorem mem_foldl_add {rules : List Rule} :
    rule ∈ rules.foldl add found ↔ rule ∈ found ∨ rule ∈ rules := by
  induction rules generalizing found with
  | nil => simp
  | cons first rest ih =>
      rw [List.foldl_cons, ih, mem_add, List.mem_cons, or_comm (a := rule = first), or_assoc]

theorem reachableStep_grows (production : Production) :
    Grows fun found =>
      if production.lhs ∈ found then (rulesOf production.rhs).foldl add found else found :=
  (foldl_grows add add_grows (rulesOf production.rhs)).guarded _

theorem sweepReachable_grows (table : List Production) : Grows (sweepReachable table) :=
  foldl_grows _ reachableStep_grows table

/-- A sweep adds only what right-hand sides lead to. -/
theorem sweepReachable_sound (hfound : ∀ rule ∈ found, Reaches table start rule) :
    ∀ rule ∈ sweepReachable table found, Reaches table start rule := by
  unfold sweepReachable
  refine List.foldlRecOn (motive := fun found => ∀ rule ∈ found, Reaches table start rule)
    table _ hfound fun found hfound production hmem => ?_
  split
  next hlhs =>
    intro rule hrule
    rcases mem_foldl_add.mp hrule with hold | hnew
    · exact hfound rule hold
    · exact .step (hfound _ hlhs) hmem (mem_rulesOf.mp hnew)
  next => exact hfound

/-- A sweep adds what is on the right of every nonterminal that is found already. -/
theorem mem_sweepReachable {production : Production} (hnodup : found.Nodup)
    (hmem : production ∈ table) (hlhs : production.lhs ∈ found)
    (hrule : .rule rule ∈ production.rhs) : rule ∈ sweepReachable table found := by
  refine mem_foldl reachableStep_grows hmem hnodup fun more hsubset => ?_
  rw [if_pos (hsubset hlhs)]
  exact mem_foldl_add.mpr (.inr (mem_rulesOf.mpr hrule))

/-- The nonterminals found by saturation are exactly those that right-hand sides lead to. -/
theorem mem_reachable_iff : rule ∈ reachable table start ↔ Reaches table start rule := by
  have hgrows := sweepReachable_grows table
  constructor
  · refine repeatSweep_keeps (P := fun found => ∀ rule ∈ found, Reaches table start rule)
      (fun _ => sweepReachable_sound) _ (fun rule hrule => ?_) rule
    obtain rfl := List.mem_singleton.mp hrule
    exact .refl
  · intro h
    obtain ⟨hnodup, hstart⟩ : (reachable table start).Nodup ∧ start ∈ reachable table start :=
      repeatSweep_keeps (P := fun found => found.Nodup ∧ start ∈ found)
        (fun found ⟨hnodup, hstart⟩ =>
          ⟨(hgrows found hnodup).1, (hgrows found hnodup).2.subset hstart⟩)
        _ ⟨List.nodup_singleton start, List.mem_singleton_self start⟩
    have hfixed : sweepReachable table (reachable table start) = reachable table start :=
      saturate_fixed hgrows (List.nodup_singleton start)
    induction h with
    | refl => exact hstart
    | step _ hmem hrule ih =>
        rw [← hfixed]
        exact mem_sweepReachable hnodup hmem ih hrule

end Saturation

/-- A search: the nonterminals found so far, and those of them that are still to be gone
through, the last one found at the front. -/
structure Search where
  found : List Rule
  pending : List Rule

namespace Search

variable {grammar : Grammar} {start rule : Rule} {search : Search} {steps : Nat}

def ofStart (start : Rule) : Search := ⟨[start], [start]⟩

/-- A nonterminal that was not met before is found, and is to be gone through. -/
def meet (search : Search) (rule : Rule) : Search :=
  if rule ∈ search.found then search else ⟨rule :: search.found, rule :: search.pending⟩

/-- The nonterminals on the right of a nonterminal's alternatives, in order. -/
def neighbours (grammar : Grammar) (rule : Rule) : List Rule :=
  ((grammar.alternatives rule).filterMap grammar.production?).flatMap fun production =>
    Saturation.rulesOf production.rhs

/-- Takes a nonterminal off the stack and meets its neighbours. -/
def step (grammar : Grammar) (search : Search) : Search :=
  match search.pending with
  | [] => search
  | rule :: rest => (neighbours grammar rule).foldl meet ⟨search.found, rest⟩

theorem mem_neighbours {next : Rule} :
    next ∈ neighbours grammar rule ↔
      ∃ production ∈ grammar.table, production.lhs = rule ∧ .rule next ∈ production.rhs := by
  simp only [neighbours, List.mem_flatMap, List.mem_filterMap, Saturation.mem_rulesOf]
  constructor
  · rintro ⟨production, ⟨id, hid, hproduction⟩, hnext⟩
    exact ⟨production, Grammar.mem_table_of_production? hproduction,
      Grammar.lhs_of_mem_alternatives hid hproduction, hnext⟩
  · rintro ⟨production, hmem, rfl, hnext⟩
    obtain ⟨id, hid, hproduction⟩ := Grammar.exists_alternative hmem
    exact ⟨production, ⟨id, hid, hproduction⟩, hnext⟩

/-- What is new goes to the front of both lists. -/
theorem foldl_meet (search : Search) (rules : List Rule) (hnodup : search.found.Nodup) :
    ∃ fresh, rules.foldl meet search = ⟨fresh ++ search.found, fresh ++ search.pending⟩ ∧
      (fresh ++ search.found).Nodup ∧
      ∀ rule, rule ∈ fresh ++ search.found ↔ rule ∈ search.found ∨ rule ∈ rules := by
  induction rules generalizing search with
  | nil => exact ⟨[], rfl, hnodup, by simp⟩
  | cons first rest ih =>
      rw [List.foldl_cons, meet]
      split
      next hold =>
        obtain ⟨fresh, hfold, hfresh, hmem⟩ := ih search hnodup
        refine ⟨fresh, hfold, hfresh, fun rule => ?_⟩
        rw [hmem, List.mem_cons]
        constructor
        · exact Or.imp_right .inr
        · rintro (hfound | rfl | hrest)
          · exact .inl hfound
          · exact .inl hold
          · exact .inr hrest
      next hnew =>
        obtain ⟨fresh, hfold, hfresh, hmem⟩ :=
          ih ⟨first :: search.found, first :: search.pending⟩ (List.nodup_cons.mpr ⟨hnew, hnodup⟩)
        refine ⟨fresh ++ [first], by simpa using hfold, by simpa using hfresh, fun rule => ?_⟩
        rw [List.append_assoc, List.singleton_append, hmem, List.mem_cons, List.mem_cons,
          or_comm (a := rule = first), or_assoc]

/-- What a search keeps: everything found is reached, and what is on the right of a
nonterminal that was gone through is found. Every step goes through one nonterminal. -/
structure Underway (table : List Production) (start : Rule) (steps : Nat) (search : Search) :
    Prop where
  nodup : search.found.Nodup
  found_start : start ∈ search.found
  reaches : ∀ rule ∈ search.found, Reaches table start rule
  pending_found : search.pending ⊆ search.found
  closed : ∀ production ∈ table, production.lhs ∈ search.found →
    production.lhs ∉ search.pending → ∀ rule, .rule rule ∈ production.rhs → rule ∈ search.found
  count : search.pending = [] ∨ search.found.length = steps + search.pending.length

theorem underway_ofStart (table : List Production) (start : Rule) :
    Underway table start 0 (.ofStart start) where
  nodup := List.nodup_singleton start
  found_start := List.mem_singleton_self start
  reaches rule hrule := by
    obtain rfl := List.mem_singleton.mp hrule
    exact .refl
  pending_found := List.Subset.refl _
  closed _ _ hfound hpending := absurd hfound hpending
  count := .inr rfl

theorem Underway.step (h : Underway grammar.table start steps search) :
    Underway grammar.table start (steps + 1) (search.step grammar) := by
  rw [Search.step]
  cases hpending : search.pending with
  | nil => exact { h with count := .inl hpending }
  | cons rule rest =>
      obtain ⟨fresh, hfold, hnodup, hmem⟩ :=
        foldl_meet ⟨search.found, rest⟩ (neighbours grammar rule) h.nodup
      have hrule : rule ∈ search.found := h.pending_found (hpending ▸ List.mem_cons_self)
      have hrest : rest ⊆ search.found := fun other hother =>
        h.pending_found (hpending ▸ List.mem_cons_of_mem _ hother)
      simp only [hfold]
      refine ⟨hnodup, List.mem_append_right _ h.found_start, fun other hother => ?_, ?_, ?_, ?_⟩
      · rcases (hmem other).mp hother with hold | hnew
        · exact h.reaches other hold
        · obtain ⟨production, hproduction, hlhs, hright⟩ := mem_neighbours.mp hnew
          exact .step (hlhs ▸ h.reaches rule hrule) hproduction hright
      · exact List.append_subset.mpr
          ⟨List.subset_append_left _ _, List.subset_append_of_subset_right _ hrest⟩
      · intro production hproduction hfound hdone next hnext
        obtain ⟨hnotFresh, hnotRest⟩ := not_or.mp (List.mem_append.not.mp hdone)
        have hold := (List.mem_append.mp hfound).resolve_left hnotFresh
        by_cases hlhs : production.lhs = rule
        · exact (hmem next).mpr (.inr (mem_neighbours.mpr ⟨production, hproduction, hlhs, hnext⟩))
        · have hnotPending : production.lhs ∉ search.pending := by
            rw [hpending]
            exact List.not_mem_cons_of_ne_of_not_mem hlhs hnotRest
          exact (hmem next).mpr (.inl (h.closed production hproduction hold hnotPending next hnext))
      · have hcount := h.count.resolve_left (by rw [hpending]; exact List.cons_ne_nil _ _)
        rw [hpending, List.length_cons] at hcount
        refine .inr ?_
        rw [List.length_append, List.length_append, hcount]
        omega

theorem underway_run (grammar : Grammar) (start : Rule) (steps : Nat) :
    Underway grammar.table start steps ((step grammar)^[steps] (.ofStart start)) := by
  induction steps with
  | zero => exact underway_ofStart grammar.table start
  | succ steps ih =>
      rw [Function.iterate_succ_apply']
      exact ih.step

/-- A search is over after as many steps as there are nonterminals, since each goes
through another one. -/
theorem Underway.pending_eq_nil (h : Underway grammar.table start steps search)
    (hsteps : Rule.all.length ≤ steps) : search.pending = [] := by
  rcases h.count with hnil | hcount
  · exact hnil
  · have hlength := Saturation.length_le_of_nodup h.nodup
    exact List.eq_nil_of_length_eq_zero (by omega)

theorem Underway.mem_found_iff (h : Underway grammar.table start steps search)
    (hpending : search.pending = []) :
    rule ∈ search.found ↔ Reaches grammar.table start rule := by
  refine ⟨h.reaches rule, fun hreaches => ?_⟩
  induction hreaches with
  | refl => exact h.found_start
  | step _ hmem hrule ih =>
      exact h.closed _ hmem ih (hpending ▸ List.not_mem_nil) _ hrule

end Search

namespace Grammar

variable {grammar : Grammar} {start rule : Rule} {entry : Entry} {symbol : Symbol} {word : String}
  {labels : List String} {production : Production}

theorem mem_wordsOf {symbols : List Symbol} :
    word ∈ wordsOf symbols ↔
      word ≠ Token.anyLabel ∧ word ≠ Token.endLabel ∧ .terminal word ∈ symbols := by
  rw [wordsOf, List.mem_filterMap]
  constructor
  · rintro ⟨symbol, hmem, hsymbol⟩
    cases symbol with
    | rule => cases hsymbol
    | terminal label =>
        dsimp only at hsymbol
        split at hsymbol
        · cases hsymbol
        next hword =>
          cases hsymbol
          obtain ⟨hany, hend⟩ := not_or.mp hword
          exact ⟨hany, hend, hmem⟩
  · rintro ⟨hany, hend, hmem⟩
    exact ⟨.terminal word, hmem, if_neg (not_or.mpr ⟨hany, hend⟩)⟩

/-- The vocabulary of an entry point are the words on right-hand sides that it leads to. -/
theorem mem_vocabulary_iff :
    word ∈ grammar.vocabulary entry ↔
      word ≠ Token.anyLabel ∧ word ≠ Token.endLabel ∧
        ∃ production ∈ grammar.table, Reaches grammar.table entry.rule production.lhs ∧
          .terminal word ∈ production.rhs := by
  have hreached : ∀ rule, decide (rule ∈ grammar.reachable entry.rule) = true ↔
      Reaches grammar.table entry.rule rule :=
    fun rule => decide_eq_true_iff.trans Saturation.mem_reachable_iff
  simp only [mem_vocabulary, reachableWords, List.mem_flatMap, List.mem_filter, hreached,
    mem_wordsOf]
  constructor
  · rintro ⟨production, ⟨hmem, hreaches⟩, hany, hend, hword⟩
    exact ⟨hany, hend, production, hmem, hreaches, hword⟩
  · rintro ⟨hany, hend, production, hmem, hreaches, hword⟩
    exact ⟨production, ⟨hmem, hreaches⟩, hany, hend, hword⟩

/-- Every label of a phrase is one of its symbols, or stands on a right-hand side that
its symbols lead to. -/
theorem exists_side_of_derives {symbols : List Symbol}
    (h : Derives grammar.table symbols labels)
    (hreaches : ∀ rule, .rule rule ∈ symbols → Reaches grammar.table start rule) :
    ∀ label ∈ labels, .terminal label ∈ symbols ∨
      ∃ production ∈ grammar.table, Reaches grammar.table start production.lhs ∧
        .terminal label ∈ production.rhs := by
  induction h with
  | nil => exact fun _ hlabel => absurd hlabel List.not_mem_nil
  | terminal _ ih =>
      have hrules := fun rule hrule => hreaches rule (List.mem_cons_of_mem _ hrule)
      intro label hlabel
      rcases List.mem_cons.mp hlabel with rfl | hrest
      · exact .inl List.mem_cons_self
      · exact (ih hrules label hrest).imp_left (List.mem_cons_of_mem _)
  | @rule production symbols _ _ hmem _ _ ihinner ihrest =>
      have hlhs := hreaches production.lhs List.mem_cons_self
      have hrules := fun rule hrule => hreaches rule (List.mem_cons_of_mem _ hrule)
      intro label hlabel
      rcases List.mem_append.mp hlabel with hinner | hrest
      · rcases ihinner (fun rule hrule => .step hlhs hmem hrule) label hinner with hside | hfar
        · exact .inr ⟨production, hmem, hlhs, hside⟩
        · exact .inr hfar
      · exact (ihrest hrules label hrest).imp_left (List.mem_cons_of_mem _)

/-- Where everything in the table derives something, what a symbol on a right-hand side
derives is part of what the left-hand side does. -/
theorem exists_around
    (hproductive : ∀ rule, Mentions grammar.table rule → ∃ labels, grammar.Generates rule labels)
    (hmem : production ∈ grammar.table) (hsymbol : symbol ∈ production.rhs) :
    ∃ front back, ∀ inner, Derives grammar.table [symbol] inner →
      grammar.Generates production.lhs (front ++ inner ++ back) := by
  obtain ⟨before, after, hrhs⟩ := List.append_of_mem hsymbol
  have hsides : ∀ rule, .rule rule ∈ production.rhs → ∃ labels, grammar.Generates rule labels :=
    fun rule hrule => hproductive rule ⟨production, hmem, .inr hrule⟩
  obtain ⟨front, hfront⟩ := Chart.exists_derives before fun rule hrule =>
    hsides rule (hrhs ▸ List.mem_append_left _ hrule)
  obtain ⟨back, hback⟩ := Chart.exists_derives after fun rule hrule =>
    hsides rule (hrhs ▸ List.mem_append_right _ (List.mem_cons_of_mem _ hrule))
  refine ⟨front, back, fun inner hinner => Derives.single_iff.mpr ⟨production, hmem, rfl, ?_⟩⟩
  rw [hrhs, List.append_assoc]
  exact hfront.append (hinner.append hback)

/-- What is reached stands somewhere in a sentence. -/
theorem exists_embeds
    (hproductive : ∀ rule, Mentions grammar.table rule → ∃ labels, grammar.Generates rule labels)
    (h : Reaches grammar.table start rule) : ∃ front, Chart.Embeds grammar start front rule := by
  induction h with
  | refl => exact ⟨[], [], fun inner hinner => by simpa using hinner⟩
  | step _ hmem hrule ih =>
      obtain ⟨front, back, hback⟩ := ih
      obtain ⟨before, after, hafter⟩ := exists_around hproductive hmem hrule
      refine ⟨front ++ before, after ++ back, fun inner hinner => ?_⟩
      simpa [List.append_assoc] using hback _ (hafter inner hinner)

theorem alternatives_isEmpty_iff :
    (grammar.alternatives rule).isEmpty = true ↔
      ∀ production ∈ grammar.table, production.lhs ≠ rule := by
  rw [List.isEmpty_iff, List.eq_nil_iff_forall_not_mem]
  constructor
  · rintro hnone production hmem rfl
    obtain ⟨id, hid, -⟩ := exists_alternative hmem
    exact hnone id hid
  · intro hnone id hid
    obtain ⟨production, hproduction, hlhs⟩ := mem_alternatives.mp hid
    exact hnone production (mem_table_of_production? hproduction) hlhs

theorem undefinedIssues_eq_nil_iff :
    grammar.undefinedIssues = [] ↔
      ∀ production ∈ grammar.table, ∀ rule, .rule rule ∈ production.rhs →
        ∃ alternative ∈ grammar.table, alternative.lhs = rule := by
  simp only [undefinedIssues, List.flatMap_eq_nil_iff, List.map_eq_nil_iff,
    List.filter_eq_nil_iff, Saturation.mem_rulesOf, alternatives_isEmpty_iff, Prod.forall]
  constructor
  · intro h production hmem rule hrule
    obtain ⟨id, hid⟩ := List.mem_iff_getElem?.mp hmem
    have hsome := h production id (List.mem_zipIdx_iff_getElem?.mpr hid) rule hrule
    push Not at hsome
    exact hsome
  · intro h production id hentry rule hrule hnone
    have hmem := List.mem_of_getElem? (List.mem_zipIdx_iff_getElem?.mp hentry)
    obtain ⟨alternative, halternative, hlhs⟩ := h production hmem rule hrule
    exact hnone alternative halternative hlhs

theorem unreachableIssues_eq_nil_iff :
    grammar.unreachableIssues = [] ↔
      ∀ rule, ∃ entry : Entry, Reaches grammar.table entry.rule rule := by
  have hentry : ∀ entry, entry ∈ Entry.all := by
    intro entry
    cases entry <;> decide
  have hreached : ∀ rule, rule ∈ (Entry.all.flatMap fun entry => grammar.reachable entry.rule) ↔
      ∃ entry : Entry, Reaches grammar.table entry.rule rule := by
    intro rule
    rw [List.mem_flatMap]
    constructor
    · rintro ⟨entry, -, hmem⟩
      exact ⟨entry, Saturation.mem_reachable_iff.mp hmem⟩
    · rintro ⟨entry, hreaches⟩
      exact ⟨entry, hentry entry, Saturation.mem_reachable_iff.mpr hreaches⟩
  rw [unreachableIssues, List.map_eq_nil_iff, List.filter_eq_nil_iff]
  refine ⟨fun h rule => ?_, fun h rule _ => ?_⟩
  · have hmem := h rule (Rule.mem_all rule)
    rw [decide_eq_true_eq, not_not] at hmem
    exact (hreached rule).mp hmem
  · rw [decide_eq_true_eq, not_not]
    exact (hreached rule).mpr (h rule)

theorem checkGrammar_fst (grammar : Grammar) (journal : Log.Journal) :
    ((Validation.checkGrammar grammar).run journal).1 =
      if grammar.issues.isEmpty then .ok () else .error grammar.issues := by
  rw [Validation.checkGrammar]
  split
  · rfl
  · rfl

theorem checkGrammar_eq_ok_iff {journal : Log.Journal} :
    ((Validation.checkGrammar grammar).run journal).1 = .ok () ↔
      grammar.undefinedIssues = [] ∧ grammar.unreachableIssues = [] := by
  rw [checkGrammar_fst, ← List.append_eq_nil_iff, ← issues, ← List.isEmpty_iff]
  split
  next hnone => exact iff_of_true rfl hnone
  next hsome => exact iff_of_false (by simp) hsome

/-- The vocabulary is exactly what can be matched, whatever the table. A search from a
start symbol comes to an end, with the nonterminals that right-hand sides lead to, and
these are the ones that the grammar has as reachable. Every word of a sentence of an
entry point is in its vocabulary; and if all nonterminals in the table derive something,
as they do in that of the commands, every word of the vocabulary is in a sentence. The
check of a table passes exactly if every nonterminal on a right-hand side has an
alternative and an entry point leads to every nonterminal. -/
theorem vocabulary_exact (table : List Production) :
    (∀ start,
      let search := (Search.step (ofProductions table))^[Rule.all.length] (.ofStart start)
      search.pending = [] ∧
        ∀ rule, (rule ∈ search.found ↔ Reaches table start rule) ∧
          (rule ∈ (ofProductions table).reachable start ↔ Reaches table start rule)) ∧
    (∀ (entry : Entry) (labels : List String), Derives table [.rule entry.rule] labels →
      ∀ word ∈ labels, word ≠ Token.anyLabel → word ≠ Token.endLabel →
        word ∈ (ofProductions table).vocabulary entry) ∧
    ((∀ rule, Mentions table rule → ∃ labels, Derives table [.rule rule] labels) →
      ∀ entry : Entry, ∀ word ∈ (ofProductions table).vocabulary entry,
        word ≠ Token.anyLabel ∧ word ≠ Token.endLabel ∧
          ∃ labels, Derives table [.rule entry.rule] labels ∧ word ∈ labels) ∧
    (∀ rule, ∃ labels, Derives Commands.productions [.rule rule] labels) ∧
    ∀ journal, ((Validation.checkGrammar (ofProductions table)).run journal).1 = .ok () ↔
      (∀ production ∈ table, ∀ rule, .rule rule ∈ production.rhs →
        ∃ alternative ∈ table, alternative.lhs = rule) ∧
      ∀ rule, ∃ entry : Entry, Reaches table entry.rule rule := by
  have htable := table_ofProductions table
  generalize ofProductions table = grammar at htable ⊢
  subst htable
  refine ⟨fun start => ?_, fun entry labels hsentence word hword hany hend => ?_,
    fun hproductive entry word hword => ?_, fun rule => ?_, fun journal => ?_⟩
  · have hunderway := Search.underway_run grammar start Rule.all.length
    have hpending := hunderway.pending_eq_nil (Nat.le_refl _)
    exact ⟨hpending, fun rule =>
      ⟨hunderway.mem_found_iff hpending, Saturation.mem_reachable_iff⟩⟩
  · have hentry : ∀ rule, .rule rule ∈ [Symbol.rule entry.rule] →
        Reaches grammar.table entry.rule rule := by
      intro rule hrule
      cases List.mem_singleton.mp hrule
      exact .refl
    have hside := (exists_side_of_derives hsentence hentry word hword).resolve_left (by simp)
    exact mem_vocabulary_iff.mpr ⟨hany, hend, hside⟩
  · obtain ⟨hany, hend, production, hmem, hreaches, hside⟩ := mem_vocabulary_iff.mp hword
    obtain ⟨before, after, haround⟩ := exists_around hproductive hmem hside
    obtain ⟨front, back, hback⟩ := exists_embeds hproductive hreaches
    refine ⟨hany, hend, _, hback _ (haround [word] (.terminal .nil)), ?_⟩
    simp
  · obtain ⟨labels, hlabels⟩ := Commands.productive rule
    rw [Generates, Commands.table_eq] at hlabels
    exact ⟨labels, hlabels⟩
  · rw [checkGrammar_eq_ok_iff, undefinedIssues_eq_nil_iff, unreachableIssues_eq_nil_iff]

/-- A word that stands deep in the table of commands is in some sentence. -/
theorem hundred_in_a_sentence :
    (∀ rule, Mentions Commands.productions rule →
      ∃ labels, Derives Commands.productions [.rule rule] labels) ∧
    "hundred" ∈ Commands.grammar.vocabulary .strict ∧
      ∃ labels, Derives Commands.productions [.rule Entry.strict.rule] labels ∧
        "hundred" ∈ labels := by
  have hproductive : ∀ rule, Mentions Commands.productions rule →
      ∃ labels, Derives Commands.productions [.rule rule] labels :=
    fun rule _ => (vocabulary_exact Commands.productions).2.2.2.1 rule
  have hword : "hundred" ∈ Commands.grammar.vocabulary .strict := by
    rw [mem_vocabulary]
    decide +kernel
  exact ⟨hproductive, hword,
    ((vocabulary_exact Commands.productions).2.2.1 hproductive .strict "hundred" hword).2.2⟩

end Grammar

end SpokenKeys
