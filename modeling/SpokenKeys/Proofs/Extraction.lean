import SpokenKeys.Chart.Derivation
import SpokenKeys.Proofs.Recognition
import SpokenKeys.Proofs.Trees

/-!
The derivation that is read out of a faithful chart. Whatever the chart calls
derived has its parts there, so reading goes on until the tree is complete or
the levels are used up; and by a table that fits an outline there is nothing to
choose from on the way.
-/

namespace SpokenKeys.Chart

open SpokenKeys.Derivation

variable {grammar : Grammar} {start rule lhs : Rule} {labels : List String} {chart : Chart}
  {production : Production} {id dot origin position first last left right levels : Nat}

theorem eq_of_advance_eq {item : Item} (h : item.advance = ⟨id, dot + 1, origin⟩) :
    item = ⟨id, dot, origin⟩ := by
  cases item
  simpa [Item.advance] using h

theorem Reached.eq_origin (h : Reached grammar start labels position ⟨id, 0, origin⟩) :
    position = origin := by
  generalize hitem : (⟨id, 0, origin⟩ : Item) = item at h
  cases h with
  | start =>
      cases hitem
      rfl
  | predict =>
      cases hitem
      rfl
  | scan => simp [Item.advance] at hitem
  | complete => simp [Item.advance] at hitem

/-- Before the mark moved past a label, it was in front of it. -/
theorem Reached.before_terminal {label : String}
    (h : Reached grammar start labels position ⟨id, dot + 1, origin⟩)
    (hproduction : grammar.production? id = some production)
    (hsymbol : production.rhs[dot]? = some (.terminal label)) :
    ∃ before, position = before + 1 ∧ labels[before]? = some label ∧
      Reached grammar start labels before ⟨id, dot, origin⟩ := by
  have hnext : nextSymbol? grammar ⟨id, dot, origin⟩ = some (.terminal label) :=
    nextSymbol?_eq_some.mpr ⟨production, hproduction, hsymbol⟩
  generalize hitem : (⟨id, dot + 1, origin⟩ : Item) = moved at h
  cases h with
  | start => cases hitem
  | predict => cases hitem
  | @scan before item other hbefore hother hlabel =>
      obtain rfl := eq_of_advance_eq hitem.symm
      rw [hnext] at hother
      cases hother
      exact ⟨before, rfl, hlabel, hbefore⟩
  | complete _ _ _ _ hother =>
      obtain rfl := eq_of_advance_eq hitem.symm
      rw [hnext] at hother
      cases hother

/-- Before the mark moved past a nonterminal, it was in front of it where a
production of the nonterminal begins that is complete now. -/
theorem Reached.before_rule
    (h : Reached grammar start labels position ⟨id, dot + 1, origin⟩)
    (hproduction : grammar.production? id = some production)
    (hsymbol : production.rhs[dot]? = some (.rule rule)) :
    ∃ middle, Reached grammar start labels middle ⟨id, dot, origin⟩ ∧
      ∃ inner other, grammar.production? inner = some other ∧ other.lhs = rule ∧
        Reached grammar start labels position ⟨inner, other.length, middle⟩ := by
  have hnext : nextSymbol? grammar ⟨id, dot, origin⟩ = some (.rule rule) :=
    nextSymbol?_eq_some.mpr ⟨production, hproduction, hsymbol⟩
  generalize hitem : (⟨id, dot + 1, origin⟩ : Item) = moved at h
  cases h with
  | start => cases hitem
  | predict => cases hitem
  | scan _ hother =>
      obtain rfl := eq_of_advance_eq hitem.symm
      rw [hnext] at hother
      cases hother
  | @complete _ done waiting other hdone hcomplete hdot hwaiting hother =>
      obtain rfl := eq_of_advance_eq hitem.symm
      rw [hnext] at hother
      cases hother
      refine ⟨done.origin, hwaiting, done.production, other, hcomplete, rfl, ?_⟩
      rw [← hdot]
      exact hdone

theorem prefixReaches_iff (hfaithful : chart.Faithful labels) :
    chart.prefixReaches id dot first right = true ↔
      if dot = 0 then first = right
      else Reached chart.grammar chart.start labels right ⟨id, dot, first⟩ := by
  rw [prefixReaches]
  split
  · exact beq_iff_eq
  · exact hfaithful.2 right ⟨id, dot, first⟩

theorem prefixReaches_of_reached (hfaithful : chart.Faithful labels)
    (h : Reached chart.grammar chart.start labels right ⟨id, dot, first⟩) :
    chart.prefixReaches id dot first right = true := by
  rw [prefixReaches_iff hfaithful]
  split
  next hzero =>
    subst hzero
    exact h.eq_origin.symm
  next => exact h

/-- The symbols before a mark derive what the chart says they do. -/
theorem derives_of_prefixReaches (hfaithful : chart.Faithful labels)
    (hproduction : chart.grammar.production? id = some production)
    (h : chart.prefixReaches id dot first right = true) :
    first ≤ right ∧
      Derives chart.grammar.table (production.rhs.take dot) (span labels first right) := by
  rw [prefixReaches_iff hfaithful] at h
  split at h
  next hzero =>
    subst hzero h
    rw [span_self]
    exact ⟨Nat.le_refl _, .nil⟩
  next =>
    exact ⟨h.origin_le, (h.holds.of_production hproduction).2⟩

theorem derives_of_mem_completed (hfaithful : chart.Faithful labels)
    (h : id ∈ chart.completed rule first last) :
    first ≤ last ∧ last ≤ labels.length ∧
      Derives chart.grammar.table [.rule rule] (span labels first last) := by
  obtain ⟨production, hproduction, rfl, hreached⟩ := (mem_completed hfaithful).mp h
  obtain ⟨hle, hlast, -⟩ := hreached.holds
  exact ⟨hle, hlast, hreached.holds.derives_lhs hproduction rfl⟩

theorem mem_splitPoints : left ∈ splitPoints first right ↔ first ≤ left ∧ left ≤ right := by
  simp only [splitPoints, List.mem_reverse, List.mem_map, List.mem_range]
  constructor
  · rintro ⟨offset, hoffset, rfl⟩
    omega
  · rintro ⟨hfirst, hright⟩
    exact ⟨left - first, by omega, by omega⟩

theorem splitPoints_sorted (first right : Nat) : (splitPoints first right).Pairwise (· > ·) := by
  rw [splitPoints, List.pairwise_reverse, List.pairwise_map]
  exact List.pairwise_lt_range.imp fun h => Nat.add_lt_add_left h first

/-- Where the last symbol of a part of a production can begin, by the chart. -/
def splitOptions (chart : Chart) (id : Nat) (rule : Rule) (dot first right : Nat) : List Nat :=
  (splitPoints first right).filter fun left =>
    chart.prefixReaches id dot first left && !(chart.completed rule left right).isEmpty

theorem mem_splitOptions :
    left ∈ chart.splitOptions id rule dot first right ↔
      (first ≤ left ∧ left ≤ right) ∧ chart.prefixReaches id dot first left = true ∧
        ∃ inner, inner ∈ chart.completed rule left right := by
  rw [splitOptions, List.mem_filter, mem_splitPoints, Bool.and_eq_true, Bool.not_eq_true',
    List.isEmpty_eq_false_iff_exists_mem]

/-- The options come from right to left. -/
theorem splitOptions_sorted {others : List Nat}
    (h : chart.splitOptions id rule dot first right = left :: others) :
    (left :: others).Pairwise (· > ·) :=
  h ▸ (splitPoints_sorted first right).filter _

/-- The complete alternatives come in the order they are declared. -/
theorem completed_sorted {others : List Nat}
    (h : chart.completed rule first last = id :: others) : (id :: others).Pairwise (· < ·) :=
  h ▸ (Grammar.alternatives_sorted chart.grammar rule).filter _

/-- A part that the chart calls derived has a place where its last symbol begins. -/
theorem exists_splitOption (hfaithful : chart.Faithful labels)
    (hproduction : chart.grammar.production? id = some production)
    (hsymbol : production.rhs[dot]? = some (.rule rule))
    (h : chart.prefixReaches id (dot + 1) first right = true) :
    ∃ left, left ∈ chart.splitOptions id rule dot first right := by
  rw [prefixReaches_iff hfaithful, if_neg (Nat.succ_ne_zero dot)] at h
  obtain ⟨left, hleft, inner, other, hother, hlhs, hdone⟩ := h.before_rule hproduction hsymbol
  exact ⟨left, mem_splitOptions.mpr ⟨⟨hleft.origin_le, hdone.origin_le⟩,
    prefixReaches_of_reached hfaithful hleft, inner,
    (mem_completed hfaithful).mpr ⟨other, hother, hlhs, hdone⟩⟩⟩

/-- Nonterminals inside one another, a number of levels deep, over spans of the
labels: each stands in a right-hand side for the one before it, and its
neighbours there derive what is left of the span. -/
inductive Nests (table : List Production) (labels : List String) :
    Nat → Rule → Nat → Nat → Prop where
  | here {rule : Rule} {first last : Nat} :
      first ≤ last → last ≤ labels.length → Nests table labels 0 rule first last
  | inside {depth dot first left right last : Nat} {production : Production} {inner : Rule} :
      production ∈ table →
      production.rhs[dot]? = some (.rule inner) →
      first ≤ left → right ≤ last → last ≤ labels.length →
      Derives table (production.rhs.take dot) (span labels first left) →
      Derives table (production.rhs.drop (dot + 1)) (span labels right last) →
      Nests table labels depth inner left right →
      Nests table labels (depth + 1) production.lhs first last

/-- What reading a derivation with a number of levels comes to: a tree of the
nonterminal over the span, or there are nonterminals nested that deep. -/
def Recovers (grammar : Grammar) (labels : List String) (levels : Nat) (rule : Rule)
    (first last : Nat) (result : Except Failure (Derivation × Nat)) : Prop :=
  (∃ tree ties, result = .ok (tree, ties) ∧ Covers grammar labels tree (.rule rule) first last) ∨
  (result = .error (.tooDeep (Limits.derivationDepth + 1)) ∧
    Nests grammar.table labels levels rule first last)

theorem zipIdx_take_succ {symbols : List Symbol} {symbol : Symbol}
    (h : symbols[dot]? = some symbol) :
    (symbols.take (dot + 1)).zipIdx.reverse =
      (symbol, dot) :: (symbols.take dot).zipIdx.reverse := by
  have hlt := (List.getElem?_eq_some_iff.mp h).1
  rw [List.take_add_one, h, Option.toList_some, List.zipIdx_append, List.reverse_append]
  simp [Nat.min_eq_left (Nat.le_of_lt hlt)]

/-- Dividing a span among the symbols before a mark, where the chart has them
reach so far: it ends with trees of all symbols, or some nonterminal among them
is too deep. The induction is on the mark, which moves to the front. -/
theorem split_cases (lhs : Rule) (children : List Derivation) (hfaithful : chart.Faithful labels)
    (hproduction : chart.grammar.production? id = some production) {derive : Deriver}
    (hderive : ∀ rule left right, (∃ inner, inner ∈ chart.completed rule left right) →
      Recovers chart.grammar labels levels rule left right (derive rule left right))
    (ties : Nat) (hdot : dot ≤ production.length)
    (hlast : last ≤ labels.length)
    (hreaches : chart.prefixReaches id dot first right = true)
    (hchildren : CoverAll chart.grammar labels children (production.rhs.drop dot) right last) :
    (∃ trees total, chart.split derive lhs id first last
        (production.rhs.take dot).zipIdx.reverse right children ties = .ok (trees, total) ∧
      CoverAll chart.grammar labels trees production.rhs first last) ∨
    (chart.split derive lhs id first last
        (production.rhs.take dot).zipIdx.reverse right children ties =
        .error (.tooDeep (Limits.derivationDepth + 1)) ∧
      Nests chart.grammar.table labels (levels + 1) production.lhs first last) := by
  induction dot generalizing right children ties with
  | zero =>
      rw [prefixReaches, if_pos rfl, beq_iff_eq] at hreaches
      subst hreaches
      refine .inl ⟨children, ties, ?_, hchildren⟩
      simp [split]
  | succ dot ih =>
      have hlt : dot < production.rhs.length := hdot
      have hsymbol : production.rhs[dot]? = some production.rhs[dot] := List.getElem?_eq_getElem hlt
      have hdrop : production.rhs.drop dot = production.rhs[dot] :: production.rhs.drop (dot + 1) :=
        List.drop_eq_getElem_cons hlt
      rw [zipIdx_take_succ hsymbol]
      generalize production.rhs[dot] = symbol at hsymbol hdrop
      cases symbol with
      | terminal label =>
          have hreached := hreaches
          rw [prefixReaches_iff hfaithful, if_neg (Nat.succ_ne_zero dot)] at hreached
          obtain ⟨before, rfl, hlabel, hbefore⟩ := hreached.before_terminal hproduction hsymbol
          simp only [split]
          apply ih _ ties (Nat.le_of_lt hlt) (prefixReaches_of_reached hfaithful hbefore)
          rw [hdrop]
          exact ⟨before + 1, ⟨rfl, rfl, hlabel⟩, hchildren⟩
      | rule rule =>
          obtain ⟨option, hoption⟩ := exists_splitOption hfaithful hproduction hsymbol hreaches
          simp only [split]
          rw [← splitOptions]
          cases hoptions : chart.splitOptions id rule dot first right with
          | nil =>
              rw [hoptions] at hoption
              cases hoption
          | cons left others =>
              have hmem : left ∈ chart.splitOptions id rule dot first right := by simp [hoptions]
              obtain ⟨⟨hfirst, hright⟩, hleft, inner, hinner⟩ := mem_splitOptions.mp hmem
              -- The first option is taken, and what is before it is still reached.
              rcases hderive rule left right ⟨inner, hinner⟩ with
                ⟨tree, below, htree, hcovers⟩ | ⟨hdeep, hnests⟩
              · simp only [htree]
                apply ih _ _ (Nat.le_of_lt hlt) hleft
                rw [hdrop]
                exact ⟨right, hcovers, hchildren⟩
              · simp only [hdeep]
                refine .inr ⟨rfl, .inside (Grammar.mem_table_of_production? hproduction) hsymbol
                  hfirst (le_of_coverAll hchildren) hlast ?_ (derives_of_coverAll hchildren) hnests⟩
                exact (derives_of_prefixReaches hfaithful hproduction hleft).2

/-- A span that the chart calls derived has a tree, unless that is too deep. -/
theorem deriveNode_recovers (hfaithful : chart.Faithful labels) (levels : Nat)
    (hcompleted : ∃ id, id ∈ chart.completed rule first last) :
    Recovers chart.grammar labels levels rule first last
      (chart.deriveNode levels rule first last) := by
  induction levels generalizing rule first last with
  | zero =>
      obtain ⟨id, hid⟩ := hcompleted
      obtain ⟨hle, hlast, -⟩ := derives_of_mem_completed hfaithful hid
      exact .inr ⟨rfl, .here hle hlast⟩
  | succ levels ih =>
      rw [deriveNode]
      cases hentries : chart.completed rule first last with
      | nil =>
          rw [hentries] at hcompleted
          obtain ⟨id, hid⟩ := hcompleted
          cases hid
      | cons id others =>
          have hmem : id ∈ chart.completed rule first last := by simp [hentries]
          obtain ⟨hle, hlast, -⟩ := derives_of_mem_completed hfaithful hmem
          obtain ⟨production, hproduction, rfl, hreached⟩ := (mem_completed hfaithful).mp hmem
          have hsplit := split_cases production.lhs [] hfaithful hproduction
            (fun rule left right => ih) 0 (Nat.le_refl _) hlast
            (prefixReaches_of_reached hfaithful hreached)
            (by rw [Production.length, List.drop_length]; rfl)
          rw [Production.length, List.take_length] at hsplit
          simp only [hproduction]
          rcases hsplit with ⟨trees, total, htrees, hcovers⟩ | ⟨hdeep, hnests⟩
          · simp only [htrees]
            exact .inl ⟨_, _, rfl, rfl, rfl, production, hproduction, rfl, hcovers⟩
          · simp only [hdeep]
            exact .inr ⟨rfl, hnests⟩

/-- By a table that fits an outline no two alternatives derive one span. -/
theorem completed_unique {outline : Outline} (hfits : outline.Fits chart.grammar.table)
    (hfaithful : chart.Faithful labels) {others : List Nat}
    (h : chart.completed rule first last = id :: others) : others = [] := by
  have hsorted := completed_sorted h
  cases others with
  | nil => rfl
  | cons other rest =>
      have hlt : id < other := List.rel_of_pairwise_cons hsorted List.mem_cons_self
      obtain ⟨production, hproduction, hlhs, hreached⟩ :=
        (mem_completed hfaithful).mp (h ▸ List.mem_cons_self : id ∈ _)
      obtain ⟨production', hproduction', hlhs', hreached'⟩ :=
        (mem_completed hfaithful).mp (h ▸ List.mem_cons_of_mem _ List.mem_cons_self : other ∈ _)
      have hderives := hreached.holds.derives_rhs hproduction rfl
      have hderives' := hreached'.holds.derives_rhs hproduction' rfl
      rw [Grammar.production?_eq] at hproduction hproduction'
      -- Both derive the span, so their numbers, which are sorted, would be equal.
      have hequal := hfits.alternative_unique hproduction hproduction' (hlhs.trans hlhs'.symm)
        hderives hderives'
      omega

theorem splitOptions_unique {outline : Outline} (hfits : outline.Fits chart.grammar.table)
    (hfaithful : chart.Faithful labels)
    (hproduction : chart.grammar.production? id = some production)
    (hsymbol : production.rhs[dot]? = some (.rule rule)) {others : List Nat}
    (h : chart.splitOptions id rule dot first right = left :: others) : others = [] := by
  have hsorted := splitOptions_sorted h
  cases others with
  | nil => rfl
  | cons other rest =>
      have hlt : left > other := List.rel_of_pairwise_cons hsorted List.mem_cons_self
      obtain ⟨⟨-, hright⟩, hreaches, inner, hinner⟩ :=
        mem_splitOptions.mp (h ▸ List.mem_cons_self : left ∈ _)
      obtain ⟨⟨-, hright'⟩, hreaches', inner', hinner'⟩ :=
        mem_splitOptions.mp (h ▸ List.mem_cons_of_mem _ List.mem_cons_self : other ∈ _)
      obtain ⟨hle, hfront⟩ := derives_of_prefixReaches hfaithful hproduction hreaches
      obtain ⟨hle', hfront'⟩ := derives_of_prefixReaches hfaithful hproduction hreaches'
      obtain ⟨-, hlast, hback⟩ := derives_of_mem_completed hfaithful hinner
      obtain ⟨-, -, hback'⟩ := derives_of_mem_completed hfaithful hinner'
      have hdivides : outline.divides (production.rhs.take dot ++ [.rule rule]) = true := by
        have hwhole := hfits.divides production (Grammar.mem_table_of_production? hproduction)
        rw [← List.take_append_drop (dot + 1) production.rhs, List.take_add_one, hsymbol] at hwhole
        exact Outline.divides_of_append hwhole
      have hequal := border_unique hfits hdivides hlast hle hright hle' hright' hfront hback
        hfront' hback'
      omega

/-- Where a nonterminal is next, the first option is taken and derived on its own. -/
theorem exists_option_of_split {derive : Deriver} {rest : List (Symbol × Nat)}
    {children trees : List Derivation} {ties total : Nat}
    (h : chart.split derive lhs id first last ((.rule rule, dot) :: rest) right children ties =
      .ok (trees, total)) :
    ∃ left others child below,
      chart.splitOptions id rule dot first right = left :: others ∧
      derive rule left right = .ok (child, below) ∧
      chart.split derive lhs id first last rest left (child :: children)
        (ties + (if others.isEmpty then 0 else 1) + below) = .ok (trees, total) := by
  simp only [split] at h
  rw [← splitOptions] at h
  cases hoptions : chart.splitOptions id rule dot first right with
  | nil => simp [hoptions] at h
  | cons left others =>
      rw [hoptions] at h
      cases hchild : derive rule left right with
      | error failure => simp [hchild, bind, Except.bind] at h
      | ok result =>
          obtain ⟨child, below⟩ := result
          simp only [hchild] at h
          exact ⟨left, others, child, below, rfl, hchild, h⟩

theorem split_ties {outline : Outline} (hfits : outline.Fits chart.grammar.table)
    (hfaithful : chart.Faithful labels)
    (hproduction : chart.grammar.production? id = some production) {derive : Deriver}
    (hderive : ∀ rule left right tree ties, derive rule left right = .ok (tree, ties) → ties = 0)
    {symbols : List (Symbol × Nat)}
    (hsymbols : ∀ entry ∈ symbols, production.rhs[entry.2]? = some entry.1)
    {children trees : List Derivation} {ties total : Nat}
    (h : chart.split derive lhs id first last symbols right children ties = .ok (trees, total)) :
    total = ties := by
  induction symbols generalizing right children ties with
  | nil =>
      rw [split] at h
      split at h
      · cases h
        rfl
      · cases h
  | cons entry rest ih =>
      have hrest := fun entry hentry => hsymbols entry (List.mem_cons_of_mem _ hentry)
      obtain ⟨symbol, dot⟩ := entry
      cases symbol with
      | terminal label =>
          cases right with
          | zero => simp [split] at h
          | succ index =>
              rw [split] at h
              exact ih hrest h
      | rule rule =>
          have hsymbol : production.rhs[dot]? = some (.rule rule) := hsymbols _ List.mem_cons_self
          obtain ⟨left, others, child, below, hoptions, hchild, h⟩ := exists_option_of_split h
          obtain rfl := splitOptions_unique hfits hfaithful hproduction hsymbol hoptions
          obtain rfl := hderive rule left right child below hchild
          exact ih hrest h

/-- A node that is read has the first alternative that is complete over its span, and its
children are what the span is divided into. -/
theorem exists_split_of_deriveNode (hfaithful : chart.Faithful labels) {tree : Derivation}
    {ties : Nat} (h : chart.deriveNode levels rule first last = .ok (tree, ties)) :
    ∃ below id others production children total, levels = below + 1 ∧
      chart.completed rule first last = id :: others ∧
      chart.grammar.production? id = some production ∧ production.lhs = rule ∧
      Reached chart.grammar chart.start labels last ⟨id, production.length, first⟩ ∧
      chart.split (chart.deriveNode below) rule id first last production.rhs.zipIdx.reverse last
        [] 0 = .ok (children, total) ∧
      tree = .node id first last children ∧
      ties = total + if others.isEmpty then 0 else 1 := by
  cases levels with
  | zero => cases h
  | succ below =>
      rw [deriveNode] at h
      cases hentries : chart.completed rule first last with
      | nil => simp [hentries] at h
      | cons id others =>
          obtain ⟨production, hproduction, hlhs, hreached⟩ :=
            (mem_completed hfaithful).mp (hentries ▸ List.mem_cons_self : id ∈ _)
          simp only [hentries, hproduction] at h
          cases hsplit : chart.split (chart.deriveNode below) rule id first last
              production.rhs.zipIdx.reverse last [] 0 with
          | error failure => simp [hsplit, bind, Except.bind] at h
          | ok result =>
              obtain ⟨children, total⟩ := result
              simp only [hsplit] at h
              cases h
              exact ⟨below, id, others, production, children, total, rfl, rfl, hproduction, hlhs,
                hreached, hsplit, rfl, rfl⟩

/-- By a table that fits an outline reading a derivation leaves no ties. -/
theorem deriveNode_ties {outline : Outline} (hfits : outline.Fits chart.grammar.table)
    (hfaithful : chart.Faithful labels) {tree : Derivation} {ties : Nat}
    (h : chart.deriveNode levels rule first last = .ok (tree, ties)) : ties = 0 := by
  induction levels generalizing rule first last tree ties with
  | zero => cases h
  | succ levels ih =>
      obtain ⟨below, id, others, production, children, total, hlevels, hentries, hproduction, -, -,
        hsplit, -, hties⟩ := exists_split_of_deriveNode hfaithful h
      cases hlevels
      obtain rfl := completed_unique hfits hfaithful hentries
      have hsymbols : ∀ entry ∈ production.rhs.zipIdx.reverse,
          production.rhs[entry.2]? = some entry.1 := by
        intro entry hentry
        exact List.mem_zipIdx_iff_getElem?.mp (List.mem_reverse.mp hentry)
      have hzero := split_ties hfits hfaithful hproduction
        (fun rule left right tree ties => ih) hsymbols hsplit
      rw [hties, hzero]
      rfl

/-- The derivation of a chart is one of the start symbol over all labels, unless
nonterminals are nested deeper than derivations may be. -/
theorem derive_recovers {tokens : List Token}
    (hbuild : build grammar start tokens = .ok chart) :
    Recovers grammar (tokens.map Token.kind)
      (Limits.derivationDepth + 1) start 0 tokens.length chart.derive := by
  obtain ⟨rfl, rfl, hfaithful, hgenerates⟩ := faithful_of_build hbuild
  have hcount : chart.tokenCount = tokens.length := hfaithful.1.trans (List.length_map ..)
  have haccepted := (isAccepted_iff hfaithful).mpr hgenerates
  rw [isAccepted, Bool.not_eq_true', List.isEmpty_eq_false_iff_exists_mem] at haccepted
  have hrecovers := deriveNode_recovers hfaithful (Limits.derivationDepth + 1) haccepted
  rw [derive, ← hcount]
  exact hrecovers

/-- Whether ranks bound how deep nonterminals are nested: a rank falls from a
left-hand side to the nonterminals on the right, unless their neighbours take
labels, which count twice. -/
def ranksFall (outline : Outline) (rank : Rule → Nat) (production : Production) : Bool :=
  production.rhs.zipIdx.all fun entry =>
    match entry.1 with
    | .terminal _ => true
    | .rule inner => decide (rank inner + 1 ≤ rank production.lhs +
        2 * (outline.shortestOf (production.rhs.take entry.2) +
          outline.shortestOf (production.rhs.drop (entry.2 + 1))))

/-- Nonterminals are nested no deeper than the rank and the labels allow. -/
theorem Nests.depth_le {outline : Outline} {table : List Production} (hfits : outline.Fits table)
    {rank : Rule → Nat} (hranks : ∀ production ∈ table, ranksFall outline rank production = true)
    {depth : Nat} (h : Nests table labels depth rule first last) :
    first ≤ last ∧ depth ≤ rank rule + 2 * (last - first) := by
  induction h with
  | here hle => exact ⟨hle, Nat.zero_le _⟩
  | @inside depth dot first left right last production inner hmem hsymbol hfirst hlast hlabels
      hfront hback _ ih =>
      obtain ⟨hle, hdepth⟩ := ih
      have hentry : (Symbol.rule inner, dot) ∈ production.rhs.zipIdx :=
        List.mem_zipIdx_iff_getElem?.mpr hsymbol
      have hrank := of_decide_eq_true (List.all_eq_true.mp (hranks _ hmem) _ hentry)
      dsimp only at hrank
      have hshort := hfits.shortestOf_le hfront
      have hshort' := hfits.shortestOf_le hback
      rw [span_length] at hshort hshort'
      exact ⟨by omega, by omega⟩

end SpokenKeys.Chart
