import Mathlib.Data.List.Lex
import Mathlib.Order.Bounds.Basic
import SpokenKeys.Proofs.Context
import SpokenKeys.Proofs.GenuineDerivation

/-!
Which derivation is read out of a chart where there are several. Of the alternatives
that derive a span it is the one declared first, and of the ways to share a span among
the symbols of a right-hand side it is the one where the last symbol has the fewest
tokens, then the one before it, and so on. As long as at most two of the symbols can
have different numbers of tokens, the first ones have the most tokens that way; from
three on they need not.
-/

namespace SpokenKeys

/-- Symbols share labels, which they derive one after the other: the numbers of labels
that they have. -/
inductive Shares (table : List Production) : List Symbol → List String → List Nat → Prop where
  | nil : Shares table [] [] []
  | cons {symbol : Symbol} {symbols : List Symbol} {front back : List String}
      {counts : List Nat} :
      Derives table [symbol] front →
      Shares table symbols back counts →
      Shares table (symbol :: symbols) (front ++ back) (front.length :: counts)

/-- All that a symbol derives has one length. -/
def Rigid (table : List Production) (symbol : Symbol) : Prop :=
  ∀ labels others, Derives table [symbol] labels → Derives table [symbol] others →
    labels.length = others.length

/-- All but some number of the symbols are rigid. -/
inductive RigidBut (table : List Production) : Nat → List Symbol → Prop where
  | nil {number : Nat} : RigidBut table number []
  | rigid {number : Nat} {symbol : Symbol} {symbols : List Symbol} :
      Rigid table symbol → RigidBut table number symbols →
      RigidBut table number (symbol :: symbols)
  | loose {number : Nat} {symbol : Symbol} {symbols : List Symbol} :
      RigidBut table number symbols → RigidBut table (number + 1) (symbol :: symbols)

variable {table : List Production} {symbol : Symbol} {symbols : List Symbol}
  {labels others : List String} {counts more : List Nat}

namespace Shares

theorem sum_eq (h : Shares table symbols labels counts) : counts.sum = labels.length := by
  induction h with
  | nil => rfl
  | cons _ _ ih => rw [List.sum_cons, ih, List.length_append]

theorem length_eq (h : Shares table symbols labels counts) :
    counts.length = symbols.length := by
  induction h with
  | nil => rfl
  | cons _ _ ih => rw [List.length_cons, List.length_cons, ih]

/-- The last symbol has the end of the labels, and the others share the rest. -/
theorem concat_inv (h : Shares table (symbols ++ [symbol]) labels counts) :
    ∃ front back before, labels = front ++ back ∧ counts = before ++ [back.length] ∧
      Shares table symbols front before ∧ Derives table [symbol] back := by
  induction symbols generalizing labels counts with
  | nil =>
      cases h with
      | cons hback hnil =>
          cases hnil
          exact ⟨[], _, [], List.append_nil _, rfl, .nil, hback⟩
  | cons first symbols ih =>
      cases h with
      | @cons _ _ inner rest more hinner hrest =>
          obtain ⟨front, back, before, rfl, rfl, hfront, hback⟩ := ih hrest
          exact ⟨inner ++ front, back, inner.length :: before, (List.append_assoc ..).symm, rfl,
            .cons hinner hfront, hback⟩

theorem derives (h : Shares table symbols labels counts) : Derives table symbols labels := by
  induction h with
  | nil => exact .nil
  | cons hfront _ ih => exact hfront.append ih

end Shares

namespace RigidBut

/-- Rigid symbols have the same shares of whatever they derive. -/
theorem eq_of_none (h : RigidBut table 0 symbols) (hcounts : Shares table symbols labels counts)
    (hmore : Shares table symbols others more) : counts = more := by
  generalize hnumber : 0 = number at h
  induction h generalizing labels others counts more with
  | nil =>
      cases hcounts
      cases hmore
      rfl
  | rigid hrigid _ ih =>
      cases hcounts with
      | cons hfirst hrest =>
          cases hmore with
          | cons hfirst' hrest' =>
              rw [hrigid _ _ hfirst hfirst', ih hrest hrest' hnumber]
  | loose => cases hnumber

/-- Shares that differ in one place only are compared by their sums, whatever follows. -/
theorem compare_of_one (h : RigidBut table 1 symbols)
    (hcounts : Shares table symbols labels counts) (hmore : Shares table symbols others more) :
    (more.sum = counts.sum → more = counts) ∧
      (more.sum < counts.sum → ∀ front back, more.reverse ++ front < counts.reverse ++ back) := by
  generalize hnumber : 1 = number at h
  induction h generalizing labels others counts more with
  | nil =>
      cases hcounts
      cases hmore
      exact ⟨fun _ => rfl, fun hlt => absurd hlt (Nat.lt_irrefl _)⟩
  | rigid hrigid _ ih =>
      cases hcounts with
      | cons hfirst hrest =>
          cases hmore with
          | cons hfirst' hrest' =>
              obtain ⟨hequal, hless⟩ := ih hrest hrest' hnumber
              simp only [List.sum_cons, hrigid _ _ hfirst' hfirst, Nat.add_left_cancel_iff,
                Nat.add_lt_add_iff_left, List.reverse_cons, List.append_assoc]
              exact ⟨fun hsum => by rw [hequal hsum], fun hlt front back => hless hlt _ _⟩
  | loose hrigid _ =>
      cases hnumber
      cases hcounts with
      | cons hfirst hrest =>
          cases hmore with
          | cons hfirst' hrest' =>
              obtain rfl := hrigid.eq_of_none hrest hrest'
              simp only [List.sum_cons, Nat.add_right_cancel_iff, Nat.add_lt_add_iff_right,
                List.reverse_cons, List.append_assoc]
              exact ⟨fun hsum => by rw [hsum], fun hlt front back =>
                List.Lex.append_left _ (.rel hlt) _⟩

/-- Of shares that differ in two places only, those that are not less from the last one
on are not greater from the first one on. -/
theorem le_of_two (h : RigidBut table 2 symbols)
    (hcounts : Shares table symbols labels counts) (hmore : Shares table symbols others more)
    (hsum : more.sum = counts.sum) {front : List Nat}
    (hle : counts.reverse ++ front ≤ more.reverse ++ front) : more ≤ counts := by
  generalize hnumber : 2 = number at h
  induction h generalizing labels others counts more front with
  | nil =>
      cases hcounts
      cases hmore
      exact le_refl _
  | rigid hrigid _ ih =>
      cases hcounts with
      | cons hfirst hrest =>
          cases hmore with
          | cons hfirst' hrest' =>
              have hhead := hrigid _ _ hfirst' hfirst
              simp only [List.sum_cons, hhead, Nat.add_left_cancel_iff, List.reverse_cons,
                List.append_assoc] at hsum hle ⊢
              exact List.cons_le_cons _ (ih hrest hrest' hsum hle hnumber)
  | loose hrigid _ =>
      cases hnumber
      cases hcounts with
      | @cons _ _ first _ counts hfirst hrest =>
          cases hmore with
          | @cons _ _ first' _ more hfirst' hrest' =>
              obtain ⟨hequal, hless⟩ := hrigid.compare_of_one hrest hrest'
              simp only [List.sum_cons, List.reverse_cons, List.append_assoc] at hsum hle
              rcases Nat.lt_trichotomy first'.length first.length with hlt | heq | hgt
              · exact le_of_lt (.rel hlt)
              · rw [heq, hequal (by omega)]
              · -- The others have less to share, so they would have less from the last one on.
                exact absurd hle (not_le_of_gt (hless (by omega) _ _))

end RigidBut

/-- Labels that make a span begin and end with spans. -/
theorem exists_seam {first last : Nat} {front back : List String} (hle : first ≤ last)
    (hlast : last ≤ labels.length) (h : span labels first last = front ++ back) :
    ∃ seam, first ≤ seam ∧ seam ≤ last ∧ back.length = last - seam ∧
      front = span labels first seam ∧ back = span labels seam last := by
  have hlength := congrArg List.length h
  rw [span_length, Nat.min_eq_left hlast, List.length_append] at hlength
  have hdrop := span_append_drop labels hle
  rw [h, List.append_assoc] at hdrop
  have hseam : labels.drop (first + front.length) = back ++ labels.drop last := by
    rw [← List.drop_drop, ← hdrop, List.drop_left' rfl]
  refine ⟨first + front.length, Nat.le_add_right _ _, by omega, by omega,
    (span_of_drop hdrop.symm).symm, ?_⟩
  have hback := span_of_drop hseam
  rw [show first + front.length + back.length = last by omega] at hback
  exact hback.symm

/-- The shares of some symbols are the least ones from the last symbol on if no share of
the last one is less, and those of the others are the least ones of what is left. -/
theorem Shares.least_concat {rest : List Nat} {first left right : Nat} (hfirst : first ≤ right)
    (hleft : left ≤ right) (hright : right ≤ labels.length)
    (hleast : ∀ counts, Shares table symbols (span labels first left) counts →
      rest.reverse ≤ counts.reverse)
    (hlast : ∀ seam, first ≤ seam → seam ≤ right →
      Derives table symbols (span labels first seam) →
      Derives table [symbol] (span labels seam right) → seam ≤ left)
    (hcounts : Shares table (symbols ++ [symbol]) (span labels first right) counts) :
    (rest ++ [right - left]).reverse ≤ counts.reverse := by
  obtain ⟨front, back, others, hspan, rfl, hfront, hback⟩ := hcounts.concat_inv
  obtain ⟨seam, hseam, hle, hlength, rfl, rfl⟩ := exists_seam hfirst hright hspan
  rw [List.reverse_concat, List.reverse_concat, hlength]
  rcases Nat.lt_or_eq_of_le (hlast seam hseam hle hfront.derives hback) with hlt | rfl
  · exact le_of_lt (.rel (by omega))
  · exact List.cons_le_cons _ (hleast others hfront)

namespace Derivation

variable {grammar : Grammar} {trees : List Derivation} {tree : Derivation} {start stop : Nat}

/-- Number of tokens of a derivation. -/
def width : Derivation → Nat
  | .leaf _ => 1
  | .node _ start stop _ => stop - start

theorem width_of_covers (h : Covers grammar labels tree symbol start stop) :
    tree.width = stop - start := by
  cases tree with
  | leaf index =>
      cases symbol with
      | terminal label =>
          obtain ⟨-, rfl, -⟩ := h
          exact (Nat.add_sub_cancel_left start 1).symm
      | rule rule => exact h.elim
  | node id left right children =>
      cases symbol with
      | terminal label => exact h.elim
      | rule rule =>
          obtain ⟨rfl, rfl, -⟩ := h
          rfl

/-- Derivations whose spans join share the labels there. -/
theorem shares_of_coverAll (h : CoverAll grammar labels trees symbols start stop)
    (hstop : stop ≤ labels.length) :
    Shares grammar.table symbols (span labels start stop) (trees.map width) := by
  induction trees generalizing symbols start with
  | nil =>
      match symbols, h with
      | [], h =>
        obtain rfl := h
        rw [span_self]
        exact .nil
  | cons tree rest ih =>
      match symbols, h with
      | symbol :: symbols, ⟨middle, hfirst, hrest⟩ =>
        have hmiddle := le_of_coverAll hrest
        have hwidth : (span labels start middle).length = tree.width := by
          rw [span_length, Nat.min_eq_left (hmiddle.trans hstop), width_of_covers hfirst]
        rw [← span_append labels (le_of_covers hfirst) hmiddle, List.map_cons, ← hwidth]
        exact .cons (derives_of_covers hfirst) (ih hrest)

/-- A node of a derivation has a production whose symbols its children stand for. -/
theorem exists_coverAll_of_node {whole : Symbol} {id left right first last : Nat}
    {children : List Derivation} (hcovers : Covers grammar labels tree whole first last)
    (hnode : .node id left right children = tree ∨ Below (.node id left right children) tree) :
    ∃ production, grammar.production? id = some production ∧ right ≤ last ∧
      CoverAll grammar labels children production.rhs left right := by
  obtain ⟨symbol, left', right', hright, hinner⟩ : ∃ symbol left' right', right' ≤ last ∧
      Covers grammar labels (.node id left right children) symbol left' right' := by
    rcases hnode with rfl | hbelow
    · exact ⟨whole, first, last, Nat.le_refl _, hcovers⟩
    · obtain ⟨-, -, symbol, -, left', right', hright, hinner⟩ := hbelow.exists_covers hcovers
      exact ⟨symbol, left', right', hright, hinner⟩
  cases symbol with
  | terminal label => exact hinner.elim
  | rule rule =>
      obtain ⟨rfl, rfl, production, hproduction, -, hchildren⟩ := hinner
      exact ⟨production, hproduction, hright, hchildren⟩

end Derivation

namespace Chart

open SpokenKeys.Derivation

variable {grammar : Grammar} {start rule lhs : Rule} {chart : Chart} {production : Production}
  {id dot origin position first last left right levels : Nat}

/-- What is reached was begun where its first symbol begins. -/
theorem Reached.begun {item : Item} (h : Reached grammar start labels position item) :
    Reached grammar start labels item.origin ⟨item.production, 0, item.origin⟩ := by
  induction h with
  | start hid => exact .start hid
  | predict hbefore hnext hid => exact hbefore.predict hnext hid
  | scan _ _ _ ih => exact ih
  | complete _ _ _ _ _ _ ihwaiting => exact ihwaiting

/-- Where an alternative begins, every alternative of its nonterminal does. -/
theorem Reached.sibling {other : Nat} {sibling : Production}
    (h : Reached grammar start labels position ⟨id, 0, origin⟩)
    (hproduction : grammar.production? id = some production)
    (hsibling : grammar.production? other = some sibling) (hlhs : sibling.lhs = production.lhs) :
    Reached grammar start labels position ⟨other, 0, origin⟩ := by
  have hother : ∀ {rule}, id ∈ grammar.alternatives rule → other ∈ grammar.alternatives rule :=
    fun hid => Grammar.mem_alternatives.mpr
      ⟨sibling, hsibling, hlhs.trans (Grammar.lhs_of_mem_alternatives hid hproduction)⟩
  generalize hitem : (⟨id, 0, origin⟩ : Item) = item at h
  cases h with
  | start hid =>
      cases hitem
      exact .start (hother hid)
  | predict hbefore hnext hid =>
      cases hitem
      exact hbefore.predict hnext (hother hid)
  | scan => simp [Item.advance] at hitem
  | complete => simp [Item.advance] at hitem

/-- An alternative gets as far as its symbols derive the labels. -/
theorem Reached.move_to (h : Reached grammar start labels first ⟨id, 0, first⟩)
    (hproduction : grammar.production? id = some production) (hdot : dot ≤ production.rhs.length)
    (hle : first ≤ position) (hposition : position ≤ labels.length)
    (hderives : Derives grammar.table (production.rhs.take dot) (span labels first position)) :
    Reached grammar start labels position ⟨id, dot, first⟩ := by
  have hmoved := extend hderives h hproduction (List.take_append_drop dot production.rhs).symm
    (span_append_drop labels hle).symm
  rwa [span_length, Nat.min_eq_left hposition, Nat.add_sub_cancel' hle, List.length_take,
    Nat.min_eq_left hdot, Nat.zero_add] at hmoved

/-- Wherever the symbols before a nonterminal and the nonterminal itself share a span, the
chart has it for an option. -/
theorem mem_splitOptions_of_derives (hfaithful : chart.Faithful labels)
    (hproduction : chart.grammar.production? id = some production)
    (hbegun : Reached chart.grammar chart.start labels first ⟨id, 0, first⟩)
    (hsymbol : production.rhs[dot]? = some (.rule rule)) (hfirst : first ≤ left)
    (hright : left ≤ right) (hlast : right ≤ labels.length)
    (hfront : Derives chart.grammar.table (production.rhs.take dot) (span labels first left))
    (hback : Derives chart.grammar.table [.rule rule] (span labels left right)) :
    left ∈ chart.splitOptions id rule dot first right := by
  have hlt := (List.getElem?_eq_some_iff.mp hsymbol).1
  have hreached := hbegun.move_to hproduction (Nat.le_of_lt hlt) hfirst (hright.trans hlast) hfront
  obtain ⟨inner, hinner, other, hother, hdone⟩ := hreached.complete_rule
    (nextSymbol?_eq_some.mpr ⟨production, hproduction, hsymbol⟩) hright hlast hback
  exact mem_splitOptions.mpr ⟨⟨hfirst, hright⟩, prefixReaches_of_reached hfaithful hreached, inner,
    (mem_completed hfaithful).mpr
      ⟨other, hother, Grammar.lhs_of_mem_alternatives hinner hother, hdone⟩⟩

/-- The first option is the last place. -/
theorem le_of_splitOptions {other : Nat} {others : List Nat}
    (h : chart.splitOptions id rule dot first right = left :: others)
    (hother : other ∈ chart.splitOptions id rule dot first right) : other ≤ left := by
  rw [h] at hother
  rcases List.mem_cons.mp hother with rfl | hother
  · exact Nat.le_refl _
  · exact Nat.le_of_lt (List.rel_of_pairwise_cons (splitOptions_sorted h) hother)

/-- What is found for the symbols before a mark: no shares of theirs are less from the
last one on, and the nonterminals among them were derived on their own. The induction is
on the mark, as what is taken for a symbol settles what is left for those before it. -/
theorem split_least (hfaithful : chart.Faithful labels)
    (hproduction : chart.grammar.production? id = some production)
    (hbegun : Reached chart.grammar chart.start labels first ⟨id, 0, first⟩) {derive : Deriver}
    (hderive : ∀ rule left right tree ties, derive rule left right = .ok (tree, ties) →
      tree.width = right - left)
    (hdot : dot ≤ production.rhs.length)
    (hreaches : chart.prefixReaches id dot first right = true) {children trees : List Derivation}
    {ties total : Nat}
    (h : chart.split derive lhs id first last (production.rhs.take dot).zipIdx.reverse right
      children ties = .ok (trees, total)) :
    ∃ found, trees = found ++ children ∧
      (∀ counts, Shares chart.grammar.table (production.rhs.take dot) (span labels first right)
        counts → (found.map width).reverse ≤ counts.reverse) ∧
      ∀ tree ∈ found, (∃ index, tree = .leaf index) ∨
        ∃ rule left right ties, derive rule left right = .ok (tree, ties) := by
  induction dot generalizing right children ties with
  | zero =>
      rw [List.take_zero, List.zipIdx_nil, List.reverse_nil, split] at h
      split at h
      · cases h
        refine ⟨[], rfl, fun counts hcounts => ?_, fun tree htree => by cases htree⟩
        rw [List.length_eq_zero_iff.mp hcounts.length_eq]
        exact le_refl _
      · cases h
  | succ dot ih =>
      have hlt : dot < production.rhs.length := hdot
      have hsymbol : production.rhs[dot]? = some production.rhs[dot] := List.getElem?_eq_getElem hlt
      have htake : production.rhs.take (dot + 1) =
          production.rhs.take dot ++ [production.rhs[dot]] := List.take_succ_eq_append_getElem hlt
      have hreached := hreaches
      rw [prefixReaches_iff hfaithful, if_neg (Nat.succ_ne_zero dot)] at hreached
      have hfirst := hreached.origin_le
      have hlast := hreached.holds.2.1
      rw [zipIdx_take_succ hsymbol] at h
      rw [htake]
      generalize production.rhs[dot] = symbol at hsymbol h
      cases symbol with
      | terminal label =>
          obtain ⟨before, rfl, hlabel, hbefore⟩ := hreached.before_terminal hproduction hsymbol
          rw [split] at h
          obtain ⟨found, rfl, hleast, hparts⟩ := ih (Nat.le_of_lt hlt)
            (prefixReaches_of_reached hfaithful hbefore) h
          refine ⟨found ++ [.leaf before], List.append_cons .., fun counts hcounts => ?_,
            List.forall_mem_append.mpr ⟨hparts, List.forall_mem_singleton.mpr (.inl ⟨before, rfl⟩)⟩⟩
          rw [List.map_append, List.map_singleton, width, ← Nat.add_sub_cancel_left before 1]
          refine hcounts.least_concat hfirst (Nat.le_succ before) hlast hleast
            fun seam _ hseam _ hback => ?_
          have hlength := congrArg List.length (Derives.single_terminal_iff.mp hback)
          rw [span_length, Nat.min_eq_left hlast, List.length_singleton] at hlength
          omega
      | rule rule =>
          obtain ⟨left, rest, child, below, hoptions, hchild, h⟩ := exists_option_of_split h
          have hmem : left ∈ chart.splitOptions id rule dot first right := by simp [hoptions]
          obtain ⟨⟨-, hright⟩, hleft, -⟩ := mem_splitOptions.mp hmem
          obtain ⟨found, rfl, hleast, hparts⟩ := ih (Nat.le_of_lt hlt) hleft h
          refine ⟨found ++ [child], List.append_cons .., fun counts hcounts => ?_,
            List.forall_mem_append.mpr ⟨hparts, List.forall_mem_singleton.mpr
              (.inr ⟨rule, left, right, below, hchild⟩)⟩⟩
          rw [List.map_append, List.map_singleton, hderive _ _ _ _ _ hchild]
          -- Any other seam is an option too, and the first option is the last place.
          exact hcounts.least_concat hfirst hright hlast hleast
            fun seam hseam hle hfront hback => le_of_splitOptions hoptions
              (mem_splitOptions_of_derives hfaithful hproduction hbegun hsymbol hseam hle hlast
                hfront hback)

/-- What is said of a node with a production: no alternative of the same nonterminal that
derives its span is declared before, and no shares of the symbols on the right are less
than those of its children from the last symbol on. -/
structure Preferred (grammar : Grammar) (labels : List String) (id : Nat)
    (production : Production) (left right : Nat) (children : List Derivation) : Prop where
  declared : grammar.production? id = some production
  first : ∀ other sibling, grammar.production? other = some sibling →
    sibling.lhs = production.lhs →
    Derives grammar.table sibling.rhs (span labels left right) → id ≤ other
  least : ∀ counts, Shares grammar.table production.rhs (span labels left right) counts →
    (children.map width).reverse ≤ counts.reverse

theorem deriveNode_width (hfaithful : chart.Faithful labels) {tree : Derivation} {ties : Nat}
    (h : chart.deriveNode levels rule first last = .ok (tree, ties)) :
    tree.width = last - first := by
  obtain ⟨-, -, -, -, children, -, -, -, -, -, -, -, rfl, -⟩ :=
    exists_split_of_deriveNode hfaithful h
  rfl

/-- No alternative that derives the span is declared before the first complete one. -/
theorem le_of_completed (hfaithful : chart.Faithful labels) {other : Nat} {others : List Nat}
    {sibling : Production} (hentries : chart.completed production.lhs first last = id :: others)
    (hproduction : chart.grammar.production? id = some production)
    (hreached : Reached chart.grammar chart.start labels last ⟨id, production.length, first⟩)
    (hsibling : chart.grammar.production? other = some sibling)
    (hlhs : sibling.lhs = production.lhs)
    (hderives : Derives chart.grammar.table sibling.rhs (span labels first last)) :
    id ≤ other := by
  have hdone : Reached chart.grammar chart.start labels last ⟨other, sibling.length, first⟩ := by
    refine (hreached.begun.sibling hproduction hsibling hlhs).move_to hsibling (Nat.le_refl _)
      hreached.origin_le hreached.holds.2.1 ?_
    rwa [Production.length, List.take_length]
  have hmem : other ∈ chart.completed production.lhs first last :=
    (mem_completed hfaithful).mpr ⟨sibling, hsibling, hlhs, hdone⟩
  rw [hentries] at hmem
  rcases List.mem_cons.mp hmem with rfl | hmem
  · exact Nat.le_refl _
  · exact Nat.le_of_lt (List.rel_of_pairwise_cons (completed_sorted hentries) hmem)

/-- Every node of what is read is as is preferred: the root by its own choices, and what
is below it as it was read with a level less. -/
theorem deriveNode_preferred (hfaithful : chart.Faithful labels) {tree : Derivation} {ties : Nat}
    (h : chart.deriveNode levels rule first last = .ok (tree, ties)) {children : List Derivation}
    (hnode : .node id left right children = tree ∨ Below (.node id left right children) tree) :
    ∃ production, Preferred chart.grammar labels id production left right children := by
  induction levels generalizing rule first last tree ties with
  | zero => cases h
  | succ levels ih =>
      obtain ⟨below, root, others, production, trees, total, hlevels, hentries, hproduction, rfl,
        hreached, hsplit, rfl, -⟩ := exists_split_of_deriveNode hfaithful h
      cases hlevels
      rw [← List.take_length (l := production.rhs)] at hsplit
      obtain ⟨found, htrees, hleast, hparts⟩ := split_least hfaithful hproduction hreached.begun
        (fun rule left right tree ties => deriveNode_width hfaithful) (Nat.le_refl _)
        (prefixReaches_of_reached hfaithful hreached) hsplit
      obtain rfl : trees = found := htrees.trans (List.append_nil found)
      rw [List.take_length] at hleast
      have hbelow : ∀ tree ∈ trees,
          .node id left right children = tree ∨ Below (.node id left right children) tree →
          ∃ production, Preferred chart.grammar labels id production left right children := by
        intro tree htree hinner
        rcases hparts tree htree with ⟨index, rfl⟩ | ⟨rule, first, last, ties, hchild⟩
        · rcases hinner with hleaf | hleaf
          · cases hleaf
          · cases hleaf
        · exact ih hchild hinner
      rcases hnode with hroot | hnode
      · cases hroot
        exact ⟨production, hproduction,
          fun _ _ => le_of_completed hfaithful hentries hproduction hreached, hleast⟩
      · cases hnode with
        | child hmem => exact hbelow _ hmem (.inl rfl)
        | deeper hinner hmem => exact hbelow _ hmem (.inr hinner)

/-- The derivation of a chart is chosen by two rules, whatever the table. At each of its
nodes the production is the first declared of the alternatives that derive the span, and
the symbols on the right share the span so that the last one has as few tokens as possible,
then the one before it, and so on up to the first. Where all but two symbols have a number
of tokens of their own, these are also the shares that give the first symbol as many
tokens as possible, then the second one, and so on. -/
theorem derivation_preferred (table : List Production) (start : Rule) (tokens : List Token)
    (chart : Chart) (tree : Derivation) (ties : Nat)
    (hbuild : build (.ofProductions table) start tokens = .ok chart)
    (hderive : chart.derive = .ok (tree, ties)) (id left right : Nat) (children : List Derivation)
    (hnode : .node id left right children = tree ∨ Below (.node id left right children) tree) :
    ∃ production, table[id]? = some production ∧
      let labels := span (tokens.map Token.kind) left right
      IsLeast {other | ∃ sibling, table[other]? = some sibling ∧ sibling.lhs = production.lhs ∧
        Derives table sibling.rhs labels} id ∧
      IsLeast {counts | Shares table production.rhs labels counts.reverse}
        (children.map width).reverse ∧
      (RigidBut table 2 production.rhs →
        IsGreatest {counts | Shares table production.rhs labels counts} (children.map width)) := by
  obtain ⟨hgrammar, -, hfaithful, -⟩ := faithful_of_build hbuild
  have hcovers : tree.Covers (.ofProductions table) (tokens.map Token.kind) (.rule start) 0
      tokens.length := by
    rcases derive_recovers hbuild with ⟨other, total, hother, hcovers⟩ | ⟨hdeep, -⟩
    · rw [hderive] at hother
      cases hother
      exact hcovers
    · rw [hderive] at hdeep
      cases hdeep
  obtain ⟨production, hproduction, hright, hchildren⟩ := exists_coverAll_of_node hcovers hnode
  obtain ⟨other, hpreferred⟩ := deriveNode_preferred hfaithful hderive hnode
  rw [hgrammar] at hpreferred
  obtain ⟨hother, hfirst, hleast⟩ := hpreferred
  rw [hproduction] at hother
  cases hother
  have hshares := shares_of_coverAll hchildren (by rwa [List.length_map])
  have hderives := hshares.derives
  simp only [Grammar.production?_eq, Grammar.table_ofProductions] at *
  refine ⟨production, hproduction, ⟨⟨production, hproduction, rfl, hderives⟩, ?_⟩, ⟨?_, ?_⟩, ?_⟩
  · rintro other ⟨sibling, hsibling, hlhs, hsiblings⟩
    exact hfirst other sibling hsibling hlhs hsiblings
  · show Shares table production.rhs _ (children.map width).reverse.reverse
    rwa [List.reverse_reverse]
  · intro counts hcounts
    rw [← List.reverse_reverse counts]
    exact hleast _ hcounts
  · refine fun htwo => ⟨hshares, fun counts hcounts => ?_⟩
    have hsum : counts.sum = (children.map width).sum := by rw [hcounts.sum_eq, hshares.sum_eq]
    have hle : (children.map width).reverse ++ [] ≤ counts.reverse ++ [] := by
      rw [List.append_nil, List.append_nil]
      exact hleast counts hcounts
    exact htwo.le_of_two hshares hcounts hsum hle

/-- A table with three runs of one word in a row: one or two, none or two, one or two. -/
def threeRuns : List Production := [
  ⟨.commands, [.rule .movement, .rule .count, .rule .editing], .commands⟩,
  ⟨.movement, [.terminal "up"], .movement⟩,
  ⟨.movement, [.terminal "up", .terminal "up"], .movement⟩,
  ⟨.count, [], .count⟩,
  ⟨.count, [.terminal "up", .terminal "up"], .count⟩,
  ⟨.editing, [.terminal "up"], .editing⟩,
  ⟨.editing, [.terminal "up", .terminal "up"], .editing⟩]

def fourWords : List Token :=
  [.ofWord "up" 0, .ofWord "up" 1, .ofWord "up" 2, .ofWord "up" 3]

theorem exists_three_runs :
    ∃ chart children ties, build (.ofProductions threeRuns) .commands fourWords = .ok chart ∧
      chart.derive = .ok (.node 0 0 4 children, ties) ∧ children.map width = [1, 2, 1] := by
  have hcheck : (match (build (.ofProductions threeRuns) .commands fourWords).bind derive with
      | .ok (.node 0 0 4 children, _) => children.map width == [1, 2, 1]
      | _ => false) = true := by
    decide +kernel
  cases hbuild : build (.ofProductions threeRuns) .commands fourWords with
  | error failure =>
      rw [hbuild] at hcheck
      cases hcheck
  | ok chart =>
      rw [hbuild] at hcheck
      split at hcheck
      next children ties hderive =>
        exact ⟨chart, children, ties, rfl, hderive, beq_iff_eq.mp hcheck⟩
      next => cases hcheck

/-- Of the ways to share four words among three runs the one is taken where the last run
has one word, and the run before it two. -/
theorem three_runs_shared_from_last :
    ∃ chart children ties, build (.ofProductions threeRuns) .commands fourWords = .ok chart ∧
      chart.derive = .ok (.node 0 0 4 children, ties) ∧ children.map width = [1, 2, 1] ∧
      IsLeast {counts | Shares threeRuns [.rule .movement, .rule .count, .rule .editing]
        (fourWords.map Token.kind) counts.reverse} [1, 2, 1] := by
  obtain ⟨chart, children, ties, hbuild, hderive, hwidths⟩ := exists_three_runs
  obtain ⟨production, hproduction, -, hleast, -⟩ := derivation_preferred threeRuns .commands
    fourWords chart _ ties hbuild hderive 0 0 4 children (.inl rfl)
  cases hproduction
  rw [hwidths] at hleast
  exact ⟨chart, children, ties, hbuild, hderive, hwidths, hleast⟩

/-- The first run could have had two words, and the last one two; so these are not the
shares with the most words for the first run. -/
theorem three_runs_not_shared_from_first :
    ∃ chart children ties, build (.ofProductions threeRuns) .commands fourWords = .ok chart ∧
      chart.derive = .ok (.node 0 0 4 children, ties) ∧
      ¬ IsGreatest {counts | Shares threeRuns [.rule .movement, .rule .count, .rule .editing]
        (fourWords.map Token.kind) counts} (children.map width) := by
  obtain ⟨chart, children, ties, hbuild, hderive, hwidths⟩ := exists_three_runs
  refine ⟨chart, children, ties, hbuild, hderive, fun hgreatest => ?_⟩
  have hpair : Derives threeRuns [.terminal "up", .terminal "up"] ["up", "up"] :=
    .terminal (.terminal .nil)
  have hmovement : Derives threeRuns [.rule .movement] ["up", "up"] :=
    Derives.single_iff.mpr ⟨⟨.movement, _, .movement⟩, by decide, rfl, hpair⟩
  have hcount : Derives threeRuns [.rule .count] [] :=
    Derives.single_iff.mpr ⟨⟨.count, [], .count⟩, by decide, rfl, .nil⟩
  have hediting : Derives threeRuns [.rule .editing] ["up", "up"] :=
    Derives.single_iff.mpr ⟨⟨.editing, _, .editing⟩, by decide, rfl, hpair⟩
  have hshares : Shares threeRuns [.rule .movement, .rule .count, .rule .editing]
      (fourWords.map Token.kind) [2, 0, 2] :=
    .cons hmovement (.cons hcount (.cons hediting .nil))
  have hle := hgreatest.2 hshares
  rw [hwidths] at hle
  exact absurd hle (by decide)

end Chart

end SpokenKeys
