import SpokenKeys.Proofs.Language

/-!
A check that makes a table unambiguous. It rests on claims about the phrases of
every nonterminal: how short they can be, which labels they begin with, and by
which labels a phrase can go on to be a longer one. Two right-hand sides are
told apart by the first place where they differ, as long as no phrase before
that place could have gone on into what follows it.
-/

namespace SpokenKeys

/-- Claims about the phrases of every nonterminal. -/
structure Outline where
  /-- No phrase is shorter. -/
  shortest : Rule → Nat
  /-- Every label that a phrase begins with. -/
  first : Rule → List String
  /-- Every label by which some phrase goes on to be a longer phrase. -/
  more : Rule → List String

/-- Whether no label is in both lists. -/
def disjointLabels (first second : List String) : Bool :=
  first.all fun label => !second.contains label

theorem not_mem_of_disjointLabels {first second : List String} {label : String}
    (h : disjointLabels first second = true) (hfirst : label ∈ first) : label ∉ second := by
  have := List.all_eq_true.mp h label hfirst
  simpa using this

/-- Whether the labels of the first list are in the second one, in this order. -/
def includedLabels (first second : List String) : Bool := first.isSublist second

theorem mem_of_includedLabels {first second : List String} {label : String}
    (h : includedLabels first second = true) (hfirst : label ∈ first) : label ∈ second :=
  (List.isSublist_iff_sublist.mp h).subset hfirst

namespace Outline

/-- The claims about a nonterminal, for several symbols one after the other. -/
def shortestOf (outline : Outline) : List Symbol → Nat
  | [] => 0
  | .terminal _ :: rest => 1 + shortestOf outline rest
  | .rule rule :: rest => outline.shortest rule + shortestOf outline rest

@[inherit_doc shortestOf]
def firstOf (outline : Outline) : List Symbol → List String
  | [] => []
  | .terminal label :: _ => [label]
  | .rule rule :: rest =>
      if outline.shortest rule = 0 then outline.first rule ++ firstOf outline rest
      else outline.first rule

/-- Labels by which a phrase of one symbol goes on; that of a terminal does not. -/
def moreAfter (outline : Outline) : Symbol → List String
  | .terminal _ => []
  | .rule rule => outline.more rule

@[inherit_doc shortestOf]
def moreOf (outline : Outline) : List Symbol → List String
  | [] => []
  | symbol :: rest =>
      if outline.shortestOf rest = 0 then outline.moreAfter symbol ++ moreOf outline rest
      else moreOf outline rest

/-- Whether no symbol's phrase can go on into what follows it. -/
def divides (outline : Outline) : List Symbol → Bool
  | [] => true
  | symbol :: rest =>
      disjointLabels (outline.moreAfter symbol) (outline.firstOf rest) && divides outline rest

/-- Whether the first labels tell two lists of symbols apart; where one of them
can be empty, the other begins with allowed labels. -/
def startsApart (outline : Outline) (allowed : List String) (left right : List Symbol) : Bool :=
  disjointLabels (outline.firstOf left) (outline.firstOf right) &&
    (outline.shortestOf left != 0 ||
      outline.shortestOf right != 0 && includedLabels (outline.firstOf right) allowed) &&
    (outline.shortestOf right != 0 || includedLabels (outline.firstOf left) allowed)

/-- Whether a phrase of a common first symbol has one end in both lists; where
what follows can be empty, it goes on in allowed labels. -/
def staysTogether (outline : Outline) (allowed : List String) (symbol : Symbol)
    (left right : List Symbol) : Bool :=
  disjointLabels (outline.moreAfter symbol) (outline.firstOf left) &&
    disjointLabels (outline.moreAfter symbol) (outline.firstOf right) &&
    (outline.shortestOf left != 0 && outline.shortestOf right != 0 ||
      includedLabels (outline.moreAfter symbol) allowed)

def sides (table : List Production) (rule : Rule) : List (List Symbol) :=
  (table.filter fun production => production.lhs == rule).map Production.rhs

/-- Whether two lists of symbols have no phrase in common, and where a phrase of
one begins a phrase of the other, that goes on in an allowed label. A common
first symbol is taken off; of different first symbols the nonterminal that is
declared later is replaced by its right-hand sides. -/
def apart (outline : Outline) (table : List Production) :
    Nat → List String → List Symbol → List Symbol → Bool
  | 0, _, _, _ => false
  | depth + 1, allowed, left, right =>
      outline.startsApart allowed left right ||
        match left, right with
        | [], _ | _, [] => false
        | x :: left', y :: right' =>
            if x = y then
              outline.staysTogether allowed x left' right' &&
                apart outline table depth allowed left' right'
            else
              match x, y with
              | .terminal _, .terminal _ => false
              | .rule rule, .terminal _ =>
                  (sides table rule).all fun side =>
                    apart outline table depth allowed (side ++ left') right
              | .terminal _, .rule rule =>
                  (sides table rule).all fun side =>
                    apart outline table depth allowed left (side ++ right')
              | .rule rule, .rule other =>
                  if other.index ≤ rule.index then
                    (sides table rule).all fun side =>
                      apart outline table depth allowed (side ++ left') right
                  else
                    (sides table other).all fun side =>
                      apart outline table depth allowed left (side ++ right')

def eachPair {α : Type} (compare : α → α → Bool) : List α → Bool
  | [] => true
  | entry :: rest => rest.all (compare entry) && eachPair compare rest

/-- Whether the claims are right for a table and its alternatives are told apart
by going down a number of levels. -/
def check (outline : Outline) (table : List Production) (depth : Nat) : Bool :=
  (table.all fun production =>
    decide (outline.shortest production.lhs ≤ outline.shortestOf production.rhs) &&
      includedLabels (outline.firstOf production.rhs) (outline.first production.lhs) &&
      outline.divides production.rhs &&
      includedLabels (outline.moreOf production.rhs) (outline.more production.lhs)) &&
    Rule.all.all fun rule =>
      eachPair (outline.apart table depth (outline.more rule)) (sides table rule)

/-- The claims are right for a table, and its alternatives are told apart. -/
structure Fits (outline : Outline) (table : List Production) : Prop where
  shortest_le : ∀ production ∈ table,
    outline.shortest production.lhs ≤ outline.shortestOf production.rhs
  first_mem : ∀ production ∈ table, ∀ label ∈ outline.firstOf production.rhs,
    label ∈ outline.first production.lhs
  divides : ∀ production ∈ table, outline.divides production.rhs = true
  more_mem : ∀ production ∈ table, ∀ label ∈ outline.moreOf production.rhs,
    label ∈ outline.more production.lhs
  apart : ∀ rule, (sides table rule).Pairwise fun left right =>
    ∃ depth, outline.apart table depth (outline.more rule) left right = true

variable {outline : Outline} {table : List Production} {symbols left right : List Symbol}
  {symbol : Symbol} {labels allowed : List String} {label : String} {size : Nat}

theorem mem_sides {rule : Rule} {side : List Symbol} :
    side ∈ sides table rule ↔
      ∃ production ∈ table, production.lhs = rule ∧ production.rhs = side := by
  simp [sides, and_assoc]

theorem pairwise_of_eachPair {α : Type} {compare : α → α → Bool} {entries : List α}
    (h : eachPair compare entries = true) :
    entries.Pairwise fun entry other => compare entry other = true := by
  induction entries with
  | nil => exact .nil
  | cons entry rest ih =>
      rw [eachPair, Bool.and_eq_true, List.all_eq_true] at h
      exact .cons h.1 (ih h.2)

theorem fits_of_check {depth : Nat} (h : outline.check table depth = true) :
    outline.Fits table := by
  simp only [check, Bool.and_eq_true, List.all_eq_true, decide_eq_true_eq] at h
  obtain ⟨hclaims, hapart⟩ := h
  refine ⟨fun p hp => (hclaims p hp).1.1.1, fun p hp label => ?_, fun p hp => (hclaims p hp).1.2,
    fun p hp label => ?_, fun rule => ?_⟩
  · exact mem_of_includedLabels (hclaims p hp).1.1.2
  · exact mem_of_includedLabels (hclaims p hp).2
  · exact (pairwise_of_eachPair (hapart rule (Rule.mem_all rule))).imp fun h => ⟨depth, h⟩

theorem shortestOf_append (first second : List Symbol) :
    outline.shortestOf (first ++ second) =
      outline.shortestOf first + outline.shortestOf second := by
  induction first with
  | nil => simp [shortestOf]
  | cons symbol rest ih => cases symbol <;> simp [shortestOf, ih] <;> omega

theorem firstOf_append_left (first second : List Symbol) :
    ∀ label ∈ outline.firstOf first, label ∈ outline.firstOf (first ++ second) := by
  induction first with
  | nil => simp [firstOf]
  | cons symbol rest ih =>
      intro label hlabel
      cases symbol with
      | terminal => exact hlabel
      | rule rule =>
          simp only [firstOf, List.cons_append] at hlabel ⊢
          split at hlabel
          next h =>
            rw [if_pos h]
            rcases List.mem_append.mp hlabel with hfirst | hrest
            · exact List.mem_append_left _ hfirst
            · exact List.mem_append_right _ (ih label hrest)
          next h => rwa [if_neg h]

/-- A part of a right-hand side that divides its labels does so by itself. -/
theorem divides_of_append {first second : List Symbol}
    (h : outline.divides (first ++ second) = true) : outline.divides first = true := by
  induction first with
  | nil => rfl
  | cons symbol rest ih =>
      simp only [List.cons_append, Outline.divides, Bool.and_eq_true] at h ⊢
      refine ⟨?_, ih h.2⟩
      rw [disjointLabels, List.all_eq_true]
      intro label hlabel
      have hnot := not_mem_of_disjointLabels h.1 hlabel
      simpa using fun hmem => hnot (firstOf_append_left rest second label hmem)

/-- No phrase is shorter than claimed. -/
theorem Fits.shortestOf_le (hfits : outline.Fits table) (h : Derives table symbols labels) :
    outline.shortestOf symbols ≤ labels.length := by
  induction h with
  | nil => exact Nat.le_refl 0
  | terminal _ ih =>
      simp only [shortestOf, List.length_cons]
      omega
  | rule hmem _ _ ihinner ihrest =>
      have hle := hfits.shortest_le _ hmem
      simp only [shortestOf, List.length_append]
      omega

/-- Every phrase begins with a label as claimed. -/
theorem Fits.mem_firstOf (hfits : outline.Fits table)
    (h : Derives table symbols (label :: labels)) : label ∈ outline.firstOf symbols := by
  generalize hphrase : label :: labels = phrase at h
  induction h generalizing labels with
  | nil => cases hphrase
  | terminal =>
      cases hphrase
      exact List.mem_singleton.mpr rfl
  | @rule production symbols inner after hmem hinner _ ihinner ihrest =>
      simp only [firstOf]
      cases inner with
      | nil =>
          have hempty : outline.shortest production.lhs = 0 :=
            Nat.le_zero.mp (Nat.le_trans (hfits.shortest_le _ hmem) (hfits.shortestOf_le hinner))
          rw [if_pos hempty]
          exact List.mem_append_right _ (ihrest hphrase)
      | cons head tail =>
          cases hphrase
          have hfirst := hfits.first_mem _ hmem _ (ihinner rfl)
          split
          · exact List.mem_append_left _ hfirst
          · exact hfirst

/-- Derivations of a size, which is the number of productions in them. -/
inductive DerivesIn (table : List Production) : Nat → List Symbol → List String → Prop where
  | nil : DerivesIn table 0 [] []
  | terminal {size : Nat} {label : String} {symbols : List Symbol} {labels : List String} :
      DerivesIn table size symbols labels →
      DerivesIn table size (.terminal label :: symbols) (label :: labels)
  | rule {size below : Nat} {production : Production} {symbols : List Symbol}
      {inner labels : List String} :
      production ∈ table →
      DerivesIn table below production.rhs inner →
      DerivesIn table size symbols labels →
      DerivesIn table (below + size + 1) (.rule production.lhs :: symbols) (inner ++ labels)

theorem DerivesIn.derives (h : DerivesIn table size symbols labels) :
    Derives table symbols labels := by
  induction h with
  | nil => exact .nil
  | terminal _ ih => exact .terminal ih
  | rule hmem _ _ ihinner ihrest => exact .rule hmem ihinner ihrest

theorem exists_derivesIn (h : Derives table symbols labels) :
    ∃ size, DerivesIn table size symbols labels := by
  induction h with
  | nil => exact ⟨0, .nil⟩
  | terminal _ ih =>
      obtain ⟨size, hsize⟩ := ih
      exact ⟨size, .terminal hsize⟩
  | rule hmem _ _ ihinner ihrest =>
      obtain ⟨below, hbelow⟩ := ihinner
      obtain ⟨size, hsize⟩ := ihrest
      exact ⟨below + size + 1, .rule hmem hbelow hsize⟩

theorem DerivesIn.append {other : Nat} {second : List Symbol} {back : List String}
    (hfirst : DerivesIn table size symbols labels) (hsecond : DerivesIn table other second back) :
    DerivesIn table (size + other) (symbols ++ second) (labels ++ back) := by
  induction hfirst with
  | nil => simpa using hsecond
  | terminal _ ih => exact .terminal ih
  | @rule size below production symbols inner labels hmem hinner _ _ ih =>
      have h := DerivesIn.rule hmem hinner ih
      rw [show below + (size + other) + 1 = below + size + 1 + other by omega] at h
      simpa [List.append_assoc] using h

theorem DerivesIn.cons (h : DerivesIn table size (symbol :: symbols) labels) :
    ∃ below after front back, size = below + after ∧ labels = front ++ back ∧
      DerivesIn table below [symbol] front ∧ DerivesIn table after symbols back := by
  cases h with
  | @terminal _ label _ rest hrest =>
      exact ⟨0, size, [label], rest, (Nat.zero_add _).symm, rfl, .terminal .nil, hrest⟩
  | @rule after below production _ inner rest hmem hinner hrest =>
      refine ⟨below + 0 + 1, after, inner ++ [], rest, by omega, by simp, ?_, hrest⟩
      exact .rule hmem hinner .nil

/-- A first nonterminal is replaced by a right-hand side, by one production less. -/
theorem DerivesIn.expand {rule : Rule} (h : DerivesIn table size (.rule rule :: symbols) labels) :
    ∃ side ∈ sides table rule, ∃ less, less < size ∧
      DerivesIn table less (side ++ symbols) labels := by
  cases h with
  | rule hmem hinner hrest =>
      exact ⟨_, mem_sides.mpr ⟨_, hmem, rfl, rfl⟩, _, Nat.lt_succ_self _, hinner.append hrest⟩

/-- Neither list is the other, and where one begins the other, that goes on in
an allowed label. -/
def Parts (allowed front back : List String) : Prop :=
  ∀ rest, front ++ rest = back ∨ back ++ rest = front →
    ∃ label more, rest = label :: more ∧ label ∈ allowed

theorem Parts.symm {front back : List String} (h : Parts allowed front back) :
    Parts allowed back front :=
  fun rest hrest => h rest hrest.symm

/-- The labels by which phrases go on are as claimed, as far as the derivations
of both phrases together are not larger than a size. -/
def MoreWithin (outline : Outline) (table : List Production) (size : Nat) : Prop :=
  ∀ (symbol : Symbol) (front rest : List String) (label : String) (below after : Nat),
    below + after ≤ size → DerivesIn table below [symbol] front →
    DerivesIn table after [symbol] (front ++ label :: rest) → label ∈ outline.moreAfter symbol

/-- Phrases of one symbol before different rests are the same, unless one rest
is empty and the phrase before it goes on. -/
theorem head_agrees (hfits : outline.Fits table) (hmore : MoreWithin outline table size)
    {below after : Nat} (hsize : below + after ≤ size) {front front' back back' rest : List String}
    (hfront : DerivesIn table below [symbol] front) (hback : Derives table left back)
    (hfront' : DerivesIn table after [symbol] front') (hback' : Derives table right back')
    (hleft : disjointLabels (outline.moreAfter symbol) (outline.firstOf left) = true)
    (hright : disjointLabels (outline.moreAfter symbol) (outline.firstOf right) = true)
    (hequal : front ++ back ++ rest = front' ++ back') :
    front = front' ∧ back ++ rest = back' ∨
      back = [] ∧ ∃ label tail, rest = label :: tail ∧ label ∈ outline.moreAfter symbol := by
  rw [List.append_assoc] at hequal
  rcases List.append_eq_append_iff.mp hequal with ⟨gap, hgap, hrest⟩ | ⟨gap, hgap, hrest⟩
  · cases gap with
    | nil =>
        rw [List.append_nil] at hgap
        exact .inl ⟨hgap.symm, hrest⟩
    | cons label tail =>
        -- The phrase goes on by the gap, which is not what the other side follows it with.
        have hlabel := hmore symbol front tail label below after hsize hfront (hgap ▸ hfront')
        cases back with
        | nil => exact .inr ⟨rfl, label, tail ++ back', by simpa using hrest, hlabel⟩
        | cons head more =>
            obtain ⟨rfl, -⟩ := List.cons.inj hrest
            exact absurd (hfits.mem_firstOf hback) (not_mem_of_disjointLabels hleft hlabel)
  · cases gap with
    | nil =>
        rw [List.append_nil] at hgap
        exact .inl ⟨hgap, hrest.symm⟩
    | cons label tail =>
        have hlabel := hmore symbol front' tail label after below (by omega) hfront'
          (hgap ▸ hfront)
        rw [hrest] at hback'
        exact absurd (hfits.mem_firstOf hback') (not_mem_of_disjointLabels hright hlabel)

theorem parts_of_startsApart (hfits : outline.Fits table)
    (happart : outline.startsApart allowed left right = true) {front back : List String}
    (hfront : Derives table left front) (hback : Derives table right back) :
    Parts allowed front back := by
  simp only [startsApart, Bool.and_eq_true, Bool.or_eq_true, bne_iff_ne] at happart
  obtain ⟨⟨hdisjoint, hleft⟩, hright⟩ := happart
  have hshort := hfits.shortestOf_le hfront
  have hshort' := hfits.shortestOf_le hback
  intro rest hrest
  cases front with
  | nil =>
      cases back with
      | nil =>
          simp only [List.length_nil, Nat.le_zero] at hshort hshort'
          rcases hleft with h | ⟨h, -⟩
          · exact absurd hshort h
          · exact absurd hshort' h
      | cons label more =>
          simp only [List.length_nil, Nat.le_zero] at hshort
          rcases hrest with rfl | hrest
          · refine ⟨label, more, rfl, ?_⟩
            rcases hleft with h | ⟨-, h⟩
            · exact absurd hshort h
            · exact mem_of_includedLabels h (hfits.mem_firstOf hback)
          · cases hrest
  | cons head tail =>
      cases back with
      | nil =>
          simp only [List.length_nil, Nat.le_zero] at hshort'
          rcases hrest with hrest | rfl
          · cases hrest
          · refine ⟨head, tail, rfl, ?_⟩
            rcases hright with h | h
            · exact absurd hshort' h
            · exact mem_of_includedLabels h (hfits.mem_firstOf hfront)
      | cons label more =>
          have hfirst := hfits.mem_firstOf hfront
          have hfirst' := hfits.mem_firstOf hback
          have hsame : head = label := by
            rcases hrest with hrest | hrest <;> cases hrest <;> rfl
          exact absurd (hsame ▸ hfirst') (not_mem_of_disjointLabels hdisjoint hfirst)

/-- Lists of symbols that the check tells apart have phrases apart. -/
theorem parts_of_apart (hfits : outline.Fits table) (depth : Nat) {below after : Nat}
    (happart : outline.apart table depth allowed left right = true)
    (hmore : MoreWithin outline table size) (hsize : below + after ≤ size)
    {front back : List String} (hfront : DerivesIn table below left front)
    (hback : DerivesIn table after right back) : Parts allowed front back := by
  induction depth generalizing left right front back below after with
  | zero => cases happart
  | succ depth ih =>
      -- Replacing a first nonterminal on either side makes a derivation smaller.
      have hexpand : ∀ {rule left' right' below after front back},
          ((sides table rule).all fun side =>
            outline.apart table depth allowed (side ++ left') right') = true →
          below + after ≤ size → DerivesIn table below (.rule rule :: left') front →
          DerivesIn table after right' back → Parts allowed front back := by
        intro rule left' right' below after front back hall hsize hfront hback
        obtain ⟨side, hside, less, hless, hfront'⟩ := hfront.expand
        exact ih (List.all_eq_true.mp hall side hside) (by omega) hfront' hback
      have hexpand' : ∀ {rule left' right' below after front back},
          ((sides table rule).all fun side =>
            outline.apart table depth allowed left' (side ++ right')) = true →
          below + after ≤ size → DerivesIn table below left' front →
          DerivesIn table after (.rule rule :: right') back → Parts allowed front back := by
        intro rule left' right' below after front back hall hsize hfront hback
        obtain ⟨side, hside, less, hless, hback'⟩ := hback.expand
        exact ih (List.all_eq_true.mp hall side hside) (by omega) hfront hback'
      unfold Outline.apart at happart
      rw [Bool.or_eq_true] at happart
      rcases happart with hstarts | happart
      · exact parts_of_startsApart hfits hstarts hfront.derives hback.derives
      split at happart
      · cases happart
      · cases happart
      next x left' y right' =>
        split at happart
        next hsame =>
          subst hsame
          simp only [Bool.and_eq_true, staysTogether, Bool.or_eq_true, bne_iff_ne] at happart
          obtain ⟨⟨⟨hleft, hright⟩, hallowed⟩, happart⟩ := happart
          obtain ⟨m, n, u, v, rfl, rfl, hu, hv⟩ := hfront.cons
          obtain ⟨m', n', u', v', rfl, rfl, hu', hv'⟩ := hback.cons
          have hgoes : ∀ label ∈ outline.moreAfter x, v = [] ∨ v' = [] → label ∈ allowed := by
            intro label hlabel hempty
            have hshort := hfits.shortestOf_le hv.derives
            have hshort' := hfits.shortestOf_le hv'.derives
            rcases hallowed with ⟨hnot, hnot'⟩ | hincluded
            · rcases hempty with rfl | rfl
              · exact absurd (Nat.le_zero.mp hshort) hnot
              · exact absurd (Nat.le_zero.mp hshort') hnot'
            · exact mem_of_includedLabels hincluded hlabel
          have hrest := ih happart (show n + n' ≤ size by omega) hv hv'
          rintro rest (hequal | hequal)
          · rcases head_agrees hfits hmore (by omega) hu hv.derives hu' hv'.derives hleft hright
              hequal with ⟨-, hback⟩ | ⟨hnil, label, tail, rfl, hlabel⟩
            · exact hrest rest (.inl hback)
            · exact ⟨label, tail, rfl, hgoes label hlabel (.inl hnil)⟩
          · rcases head_agrees hfits hmore (by omega) hu' hv'.derives hu hv.derives hright hleft
              hequal with ⟨-, hback⟩ | ⟨hnil, label, tail, rfl, hlabel⟩
            · exact hrest rest (.inr hback)
            · exact ⟨label, tail, rfl, hgoes label hlabel (.inr hnil)⟩
        next =>
          split at happart
          · cases happart
          · exact hexpand happart hsize hfront hback
          · exact hexpand' happart hsize hfront hback
          · split at happart
            · exact hexpand happart hsize hfront hback
            · exact hexpand' happart hsize hfront hback

theorem mem_moreOf (hfits : outline.Fits table) (hdivides : outline.divides symbols = true)
    (hmore : MoreWithin outline table size) {below after : Nat} (hsize : below + after ≤ size)
    {front rest : List String} (hfront : DerivesIn table below symbols front)
    (hlonger : DerivesIn table after symbols (front ++ label :: rest)) :
    label ∈ outline.moreOf symbols := by
  induction symbols generalizing front below after with
  | nil =>
      cases hfront
      cases hlonger
  | cons symbol symbols ih =>
      simp only [Outline.divides, Bool.and_eq_true] at hdivides
      obtain ⟨m, n, u, v, rfl, rfl, hu, hv⟩ := hfront.cons
      obtain ⟨m', n', u', v', rfl, hequal, hu', hv'⟩ := hlonger.cons
      rw [moreOf]
      rcases head_agrees hfits hmore (by omega) hu hv.derives hu' hv'.derives hdivides.1
        hdivides.1 hequal with ⟨-, rfl⟩ | ⟨rfl, other, tail, hrest, hlabel⟩
      · have hmem := ih hdivides.2 (show n + n' ≤ size by omega) hv hv'
        split
        · exact List.mem_append_right _ hmem
        · exact hmem
      · cases hrest
        have hempty := Nat.le_zero.mp (hfits.shortestOf_le hv.derives)
        rw [if_pos hempty]
        exact List.mem_append_left _ hlabel

/-- Productions at different places of the table with one left-hand side have
phrases apart. -/
theorem parts_of_alternatives (hfits : outline.Fits table) (hmore : MoreWithin outline table size)
    {i j : Nat} {production other : Production} (hi : table[i]? = some production)
    (hj : table[j]? = some other) (hlhs : production.lhs = other.lhs) (hne : i ≠ j)
    {below after : Nat} (hsize : below + after ≤ size) {front back : List String}
    (hfront : DerivesIn table below production.rhs front)
    (hback : DerivesIn table after other.rhs back) :
    Parts (outline.more production.lhs) front back := by
  obtain ⟨hilt, rfl⟩ := List.getElem?_eq_some_iff.mp hi
  obtain ⟨hjlt, rfl⟩ := List.getElem?_eq_some_iff.mp hj
  have hpairs := hfits.apart table[i].lhs
  rw [sides, List.pairwise_map, List.pairwise_filter, List.pairwise_iff_getElem] at hpairs
  rcases Nat.lt_or_gt_of_ne hne with hlt | hgt
  · obtain ⟨depth, hdepth⟩ :=
      hpairs i j hilt hjlt hlt (beq_self_eq_true _) (beq_iff_eq.mpr hlhs.symm)
    exact parts_of_apart hfits depth hdepth hmore hsize hfront hback
  · obtain ⟨depth, hdepth⟩ :=
      hpairs j i hjlt hilt hgt (beq_iff_eq.mpr hlhs.symm) (beq_self_eq_true _)
    exact (parts_of_apart hfits depth hdepth hmore (by omega) hback hfront).symm

/-- The labels by which phrases go on are as claimed. The induction is on the
size of both derivations: a nonterminal's phrases are phrases of right-hand
sides, whose derivations are smaller. -/
theorem Fits.moreWithin (hfits : outline.Fits table) (size : Nat) :
    MoreWithin outline table size := by
  induction size using Nat.strongRecOn with
  | ind size ih =>
      intro symbol front rest label below after hsize hfront hlonger
      cases symbol with
      | terminal name =>
          have hone := Derives.single_terminal_iff.mp hfront.derives
          have hone' := Derives.single_terminal_iff.mp hlonger.derives
          rw [hone] at hone'
          cases hone'
      | rule rule =>
          obtain ⟨side, hside, less, hless, hfront⟩ := hfront.expand
          obtain ⟨side', hside', less', hless', hlonger⟩ := hlonger.expand
          rw [List.append_nil] at hfront hlonger
          obtain ⟨production, hmem, rfl, rfl⟩ := mem_sides.mp hside
          obtain ⟨other, hmem', hlhs, rfl⟩ := mem_sides.mp hside'
          have hmore := ih (less + less') (by omega)
          obtain ⟨i, hi⟩ := List.mem_iff_getElem?.mp hmem
          obtain ⟨j, hj⟩ := List.mem_iff_getElem?.mp hmem'
          by_cases hsame : i = j
          · subst hsame
            obtain rfl : production = other := Option.some.inj (hi.symm.trans hj)
            exact hfits.more_mem production hmem label
              (mem_moreOf hfits (hfits.divides production hmem) hmore (Nat.le_refl _) hfront
                hlonger)
          · have hparts := parts_of_alternatives hfits hmore hi hj hlhs.symm hsame
              (Nat.le_refl _) hfront hlonger
            obtain ⟨label', more, hrest, hlabel⟩ := hparts (label :: rest) (.inl rfl)
            cases hrest
            exact hlabel

/-- Of the alternatives of a nonterminal at most one derives given labels. -/
theorem Fits.alternative_unique (hfits : outline.Fits table) {i j : Nat}
    {production other : Production} (hi : table[i]? = some production)
    (hj : table[j]? = some other) (hlhs : production.lhs = other.lhs)
    (hfirst : Derives table production.rhs labels) (hsecond : Derives table other.rhs labels) :
    i = j := by
  by_contra hne
  obtain ⟨size, hsize⟩ := exists_derivesIn hfirst
  obtain ⟨size', hsize'⟩ := exists_derivesIn hsecond
  have hparts := parts_of_alternatives hfits (hfits.moreWithin (size + size')) hi hj hlhs hne
    (Nat.le_refl _) hsize hsize'
  obtain ⟨label, more, hnil, -⟩ := hparts [] (.inl (List.append_nil _))
  cases hnil

/-- A first symbol whose phrases cannot go on into what follows has one phrase,
also where different symbols may follow. -/
theorem Fits.head_unique (hfits : outline.Fits table) {front front' back back' : List String}
    (hleft : disjointLabels (outline.moreAfter symbol) (outline.firstOf left) = true)
    (hright : disjointLabels (outline.moreAfter symbol) (outline.firstOf right) = true)
    (hequal : front ++ back = front' ++ back') (hfront : Derives table [symbol] front)
    (hback : Derives table left back) (hfront' : Derives table [symbol] front')
    (hback' : Derives table right back') : front = front' ∧ back = back' := by
  obtain ⟨below, hbelow⟩ := exists_derivesIn hfront
  obtain ⟨after, hafter⟩ := exists_derivesIn hfront'
  have hequal' : front ++ back ++ [] = front' ++ back' := by rw [List.append_nil, hequal]
  rcases head_agrees hfits (hfits.moreWithin (below + after)) (Nat.le_refl _) hbelow hback hafter
    hback' hleft hright hequal' with ⟨hhead, hrest⟩ | ⟨-, label, tail, hnil, -⟩
  · rw [List.append_nil] at hrest
    exact ⟨hhead, hrest⟩
  · cases hnil

/-- Symbols whose phrases cannot go on into what follows divide labels in one
way only. -/
theorem Fits.split_unique (hfits : outline.Fits table) {first second : List Symbol}
    (hdivides : outline.divides (first ++ second) = true) {front front' back back' : List String}
    (hequal : front ++ back = front' ++ back') (hfront : Derives table first front)
    (hback : Derives table second back) (hfront' : Derives table first front')
    (hback' : Derives table second back') : front = front' := by
  induction first generalizing front front' with
  | nil => rw [Derives.nil_iff.mp hfront, Derives.nil_iff.mp hfront']
  | cons symbol symbols ih =>
      simp only [List.cons_append, Outline.divides, Bool.and_eq_true] at hdivides
      obtain ⟨u, v, rfl, hu, hv⟩ := Derives.cons_iff.mp hfront
      obtain ⟨u', v', rfl, hu', hv'⟩ := Derives.cons_iff.mp hfront'
      rw [List.append_assoc, List.append_assoc] at hequal
      obtain ⟨rfl, hrest⟩ := hfits.head_unique hdivides.1 hdivides.1 hequal hu (hv.append hback)
        hu' (hv'.append hback')
      rw [ih hdivides.2 hrest hv hv']

/-- Phrases of a nonterminal that follow each other are told apart in one way
only, if none of them can go on as the next one begins. -/
theorem Fits.phrases_unique (hfits : outline.Fits table) {rule : Rule}
    (hshortest : outline.shortest rule ≠ 0)
    (hdisjoint : disjointLabels (outline.more rule) (outline.first rule) = true)
    {pieces others : List (List String)}
    (hpieces : ∀ piece ∈ pieces, Derives table [.rule rule] piece)
    (hothers : ∀ piece ∈ others, Derives table [.rule rule] piece)
    (hequal : pieces.flatten = others.flatten) : pieces = others := by
  have hnonempty {piece : List String} (h : Derives table [.rule rule] piece) : piece ≠ [] := by
    rintro rfl
    exact hshortest (Nat.le_zero.mp (hfits.shortestOf_le h))
  -- What follows a phrase are as many symbols as there are phrases left.
  have hderives {pieces : List (List String)}
      (h : ∀ piece ∈ pieces, Derives table [.rule rule] piece) :
      Derives table (pieces.map fun _ => .rule rule) pieces.flatten := by
    induction pieces with
    | nil => exact .nil
    | cons piece pieces ih =>
        obtain ⟨hpiece, hrest⟩ := List.forall_mem_cons.mp h
        exact hpiece.append (ih hrest)
  have hfirst (pieces : List (List String)) : disjointLabels (outline.moreAfter (.rule rule))
      (outline.firstOf (pieces.map fun _ => .rule rule)) = true := by
    cases pieces with
    | nil => simp [disjointLabels, firstOf]
    | cons piece pieces =>
        rw [List.map_cons, firstOf, if_neg hshortest]
        exact hdisjoint
  induction pieces generalizing others with
  | nil =>
      cases others with
      | nil => rfl
      | cons other others =>
          exact absurd (List.append_eq_nil_iff.mp hequal.symm).1
            (hnonempty (hothers other List.mem_cons_self))
  | cons piece pieces ih =>
      cases others with
      | nil =>
          exact absurd (List.append_eq_nil_iff.mp hequal).1
            (hnonempty (hpieces piece List.mem_cons_self))
      | cons other others =>
          obtain ⟨hpiece, hmore⟩ := List.forall_mem_cons.mp hpieces
          obtain ⟨hother, hmore'⟩ := List.forall_mem_cons.mp hothers
          obtain ⟨hhead, hrest⟩ := hfits.head_unique (hfirst pieces) (hfirst others) hequal hpiece
            (hderives hmore) hother (hderives hmore')
          rw [hhead, ih hmore hmore' hrest]

end Outline

end SpokenKeys
