import SpokenKeys.Proofs.Phrases

/-!
Words that can be exchanged for one another. If the productions of a table go
along with an exchange, and words that are exchanged are looked up alike, then
tokens yield the same values after it, and derivations of labels remain.
-/

namespace SpokenKeys

namespace Lexicon

variable {groups : List (List String)} {word other : String}

/-- The words are the same, or stand in one of the groups. -/
def Akin (groups : List (List String)) (word other : String) : Prop :=
  word = other ∨ ∃ group ∈ groups, word ∈ group ∧ other ∈ group

instance (groups : List (List String)) (word other : String) : Decidable (Akin groups word other) :=
  inferInstanceAs (Decidable (_ ∨ _))

theorem Akin.symm (h : Akin groups word other) : Akin groups other word := by
  rcases h with rfl | ⟨group, hgroup, hword, hother⟩
  · exact .inl rfl
  · exact .inr ⟨group, hgroup, hother, hword⟩

/-- A word of no group stays. -/
theorem Akin.eq_of_not_mem (h : Akin groups word other) (hword : word ∉ groups.flatten) :
    other = word := by
  rcases h with rfl | ⟨group, hgroup, hmem, -⟩
  · rfl
  · exact absurd (List.mem_flatten_of_mem hgroup hmem) hword

theorem Akin.mem_flatten (h : Akin groups word other) (hword : word ∈ groups.flatten) :
    other ∈ groups.flatten := by
  rcases h with rfl | ⟨group, hgroup, -, hmem⟩
  · exact hword
  · exact List.mem_flatten_of_mem hgroup hmem

end Lexicon

open Lexicon

/-- The tokens are the same, but for labels that are exchanged. -/
def Token.Akin (groups : List (List String)) (token other : Token) : Prop :=
  Lexicon.Akin groups token.kind other.kind ∧ other = { token with kind := other.kind }

/-- The values are the same, but for tokens whose labels are exchanged. -/
inductive Value.Akin (groups : List (List String)) : Value → Value → Prop where
  | same (value : Value) : Akin groups value value
  | token {token other : Token} : token.Akin groups other → Akin groups (.token token) (.token other)

namespace Symbol

/-- The symbols are the same, but for labels that are exchanged. -/
inductive Akin (groups : List (List String)) : Symbol → Symbol → Prop where
  | terminal {label other : String} :
      Lexicon.Akin groups label other → Akin groups (.terminal label) (.terminal other)
  | rule (name : Rule) : Akin groups (.rule name) (.rule name)

/-- Whether the symbol stays when labels are exchanged. -/
def stays (groups : List (List String)) : Symbol → Bool
  | .terminal label => !groups.flatten.contains label
  | .rule _ => true

/-- Whether the symbol is a label or one of the nonterminals. -/
def within (inside : Rule → Bool) : Symbol → Bool
  | .terminal _ => true
  | .rule name => inside name

end Symbol

/-- Whether the meaning looks both words up, and finds the same. -/
def Meaning.findsSame (meaning : Meaning) (word other : String) : Bool :=
  match meaning with
  | .letter => letter? word == letter? other
  | .character => character? word == character? other
  | .held => Modifier.ofWord? word == Modifier.ofWord? other
  | .smallNumber => smallNumber? word == smallNumber? other
  | _ => false

/-- Whether a production of a table goes along when labels are exchanged. It has
none of them; or only its first symbol is one, every label for which that is
exchanged begins a production alike, and the meaning finds the same for both. -/
def Production.goesAlong (groups : List (List String)) (table : List Production)
    (production : Production) : Bool :=
  production.rhs.all (Symbol.stays groups) ||
    match production.rhs with
    | .terminal word :: rest =>
        rest.all (Symbol.stays groups) &&
          groups.flatten.all fun other => !decide (Akin groups word other) ||
            table.contains { production with rhs := .terminal other :: rest } &&
              production.meaning.findsSame word other
    | _ => false

/-- An exchange of labels in the phrases of some nonterminals: their productions go
along, and have no other nonterminals in them. -/
structure Exchange where
  /-- Labels of one group can stand for one another. -/
  groups : List (List String)
  /-- The nonterminals in whose phrases they can. -/
  inside : Rule → Bool
  goesAlong : (Commands.productions.all fun production => !inside production.lhs ||
    production.rhs.all (Symbol.within inside) &&
      production.goesAlong groups Commands.productions) = true

namespace Symbol

variable {groups : List (List String)} {symbol other : Symbol} {side others : List Symbol}

theorem Akin.eq_of_stays (h : symbol.Akin groups other) (hstays : symbol.stays groups = true) :
    other = symbol := by
  cases h with
  | rule => rfl
  | terminal h =>
      rw [h.eq_of_not_mem (by simpa [stays] using hstays)]

theorem eq_of_all_stay (h : List.Forall₂ (Akin groups) side others)
    (hstay : side.all (stays groups) = true) : others = side := by
  induction h with
  | nil => rfl
  | cons hfirst _ ih =>
      rw [List.all_cons, Bool.and_eq_true] at hstay
      rw [hfirst.eq_of_stays hstay.1, ih hstay.2]

end Symbol

theorem Production.goesAlong_cases {groups : List (List String)} {table : List Production}
    {production : Production} (h : production.goesAlong groups table = true) :
    production.rhs.all (Symbol.stays groups) = true ∨
      ∃ word rest, production.rhs = .terminal word :: rest ∧
        rest.all (Symbol.stays groups) = true ∧ ∀ other, Lexicon.Akin groups word other →
          { production with rhs := .terminal other :: rest } ∈ table ∧
            production.meaning.findsSame word other = true := by
  rw [goesAlong, Bool.or_eq_true] at h
  rcases h with hstay | h
  · exact .inl hstay
  by_cases hstay : production.rhs.all (Symbol.stays groups) = true
  · exact .inl hstay
  -- The symbols after the first one stay, so the first one is a label of a group.
  refine .inr ?_
  match hrhs : production.rhs, h with
  | .terminal word :: rest, h =>
      rw [Bool.and_eq_true] at h
      obtain ⟨hrest, hothers⟩ := h
      rw [hrhs, List.all_cons, hrest, Bool.and_true] at hstay
      have hword : word ∈ groups.flatten := by simpa [Symbol.stays] using hstay
      refine ⟨word, rest, rfl, hrest, fun other hakin => ?_⟩
      have hother := List.all_eq_true.mp hothers other (hakin.mem_flatten hword)
      simpa [hakin] using hother

namespace Value

variable {groups : List (List String)} {value other : Value} {values others : List Value}
  {side : List Symbol} {rule : Rule}

/-- Only a terminal has a token for its value. -/
theorem Akin.eq_of_shaped (h : value.Akin groups other) (hshaped : Shaped rule value) :
    other = value := by
  cases h with
  | same => rfl
  | token => cases rule <;> simp [Shaped, IsNumber] at hshaped

theorem Akin.eq_of_stays {symbol : Symbol} (h : value.Akin groups other)
    (hmatches : Matches symbol value) (hstays : symbol.stays groups = true) : other = value := by
  cases symbol with
  | rule => exact h.eq_of_shaped hmatches
  | terminal label =>
      obtain ⟨token, rfl, rfl⟩ := hmatches
      cases h with
      | same => rfl
      | token hakin =>
          obtain ⟨hkind, hsame⟩ := hakin
          rw [hkind.eq_of_not_mem (by simpa [Symbol.stays] using hstays)] at hsame
          rw [hsame]

theorem eq_of_all_stay (h : List.Forall₂ (Akin groups) values others)
    (hmatches : List.Forall₂ Matches side values) (hstay : side.all (Symbol.stays groups) = true) :
    others = values := by
  induction h generalizing side with
  | nil => rfl
  | cons hfirst _ ih =>
      obtain ⟨symbol, rest, hsymbol, hrest, rfl⟩ := List.forall₂_cons_right_iff.mp hmatches
      rw [List.all_cons, Bool.and_eq_true] at hstay
      rw [hfirst.eq_of_stays hsymbol hstay.1, ih hrest hstay.2]

end Value

namespace Meaning

variable {meaning : Meaning} {token other : Token} {rest : List Value} {value : Value}

/-- A meaning that looks its first token up gives the same for another token for
which the same is found. -/
theorem Gives.of_find {α : Type} {expected : String} {find : String → Option α}
    {next : α → ArgumentReader Value}
    (hplain : meaning ≠ .input ∧ meaning ≠ .tolerantInput ∧ meaning ≠ .sleepPhrase)
    (hreader : meaning.reader = do
      let token ← ArgumentReader.token meaning.name
      let found ← lookUp meaning.name expected find token.kind
      next found)
    (hfind : find token.kind = find other.kind) (h : meaning.Gives (.token token :: rest) value) :
    meaning.Gives (.token other :: rest) value := by
  have hon (token : Token) : meaning.reader.on (.token token :: rest) =
      (do
        let found ← lookUp meaning.name expected find token.kind
        next found : ArgumentReader Value).on rest := by
    rw [hreader]
    rfl
  rw [gives_iff_on hplain, hon, lookUp] at h ⊢
  rw [← hfind]
  cases hfound : find token.kind with
  | none =>
      rw [hfound] at h
      cases h
  | some found => rwa [hfound] at h

@[inherit_doc Gives.of_find]
theorem Gives.of_findsSame (hsame : meaning.findsSame token.kind other.kind = true)
    (h : meaning.Gives (.token token :: rest) value) : meaning.Gives (.token other :: rest) value := by
  cases meaning with
  | letter => exact h.of_find (by simp) rfl (beq_iff_eq.mp hsame)
  | character => exact h.of_find (by simp) rfl (beq_iff_eq.mp hsame)
  | held => exact h.of_find (by simp) rfl (beq_iff_eq.mp hsame)
  | smallNumber =>
      have hreader : Meaning.smallNumber.reader = do
          let token ← ArgumentReader.token Meaning.smallNumber.name
          let found ← lookUp Meaning.smallNumber.name "a number word" smallNumber? token.kind
          return .integer found := rfl
      exact h.of_find (by simp) hreader (beq_iff_eq.mp hsame)
  | _ => cases hsame

end Meaning

namespace Token

variable {groups : List (List String)} {token other : Token} {tokens others : List Token}

theorem Akin.symm (h : token.Akin groups other) : other.Akin groups token := by
  obtain ⟨hkind, hsame⟩ := h
  refine ⟨hkind.symm, ?_⟩
  rw [hsame]

theorem akin_symm (h : List.Forall₂ (Akin groups) tokens others) :
    List.Forall₂ (Akin groups) others tokens :=
  h.flip.imp fun _ _ => Akin.symm

theorem akin_kinds (h : List.Forall₂ (Akin groups) tokens others) :
    List.Forall₂ (Lexicon.Akin groups) (tokens.map kind) (others.map kind) :=
  List.forall₂_map_left_iff.mpr (List.forall₂_map_right_iff.mpr (h.imp fun _ _ hakin => hakin.1))

/-- Labels of no group stay. -/
theorem kinds_eq (h : List.Forall₂ (Akin groups) tokens others)
    (hkinds : ∀ token ∈ tokens, token.kind ∉ groups.flatten) :
    others.map kind = tokens.map kind := by
  induction h with
  | nil => rfl
  | cons hfirst _ ih =>
      obtain ⟨hkind, hrest⟩ := List.forall_mem_cons.mp hkinds
      rw [List.map_cons, List.map_cons, hfirst.1.eq_of_not_mem hkind, ih hrest]

end Token

namespace Exchange

open Commands

variable (exchange : Exchange) {production : Production} {symbols side : List Symbol}
  {labels others : List String} {rule : Rule} {value : Value}

theorem of_mem (hmem : production ∈ grammar.table) (hlhs : exchange.inside production.lhs = true) :
    production.rhs.all (Symbol.within exchange.inside) = true ∧
      production.goesAlong exchange.groups productions = true := by
  rw [table_eq] at hmem
  have hchecked := List.all_eq_true.mp exchange.goesAlong production hmem
  simpa [hlhs] using hchecked

/-- A right-hand side is one of the nonterminal after the exchange too. -/
theorem mem_table (hmem : production ∈ grammar.table)
    (hlhs : exchange.inside production.lhs = true)
    (hakin : List.Forall₂ (Symbol.Akin exchange.groups) production.rhs side) :
    { production with rhs := side } ∈ grammar.table := by
  rcases Production.goesAlong_cases (exchange.of_mem hmem hlhs).2 with
    hstay | ⟨word, rest, hrhs, hrest, hothers⟩
  · rwa [Symbol.eq_of_all_stay hakin hstay]
  · rw [hrhs] at hakin
    obtain ⟨symbol, more, hfirst, hmore, rfl⟩ := List.forall₂_cons_left_iff.mp hakin
    cases hfirst with
    | terminal hword =>
        rw [Symbol.eq_of_all_stay hmore hrest, table_eq]
        exact (hothers _ hword).1

/-- A meaning gives the same after the exchange. -/
theorem gives {arguments results : List Value} (hmem : production ∈ grammar.table)
    (hlhs : exchange.inside production.lhs = true)
    (hmatches : List.Forall₂ Matches production.rhs arguments)
    (hakin : List.Forall₂ (Value.Akin exchange.groups) arguments results)
    (h : production.meaning.Gives arguments value) : production.meaning.Gives results value := by
  rcases Production.goesAlong_cases (exchange.of_mem hmem hlhs).2 with
    hstay | ⟨word, rest, hrhs, hrest, hothers⟩
  · rwa [Value.eq_of_all_stay hakin hmatches hstay]
  · rw [hrhs] at hmatches
    obtain ⟨_, more, ⟨token, rfl, rfl⟩, hmore, rfl⟩ := List.forall₂_cons_left_iff.mp hmatches
    obtain ⟨first, after, hfirst, hafter, rfl⟩ := List.forall₂_cons_left_iff.mp hakin
    rw [Value.eq_of_all_stay hafter hmore hrest]
    cases hfirst with
    | same => exact h
    | token hother => exact h.of_findsSame (hothers _ hother.1).2

/-- What symbols derive, the symbols after the exchange derive after it. The labels
tell what becomes of the terminals, and so which production is used instead. -/
theorem exists_derives (h : Derives grammar.table symbols labels)
    (hinside : symbols.all (Symbol.within exchange.inside) = true)
    (hakin : List.Forall₂ (Lexicon.Akin exchange.groups) labels others) :
    ∃ side, List.Forall₂ (Symbol.Akin exchange.groups) symbols side ∧
      Derives grammar.table side others := by
  induction h generalizing others with
  | nil =>
      obtain rfl := List.forall₂_nil_left_iff.mp hakin
      exact ⟨[], .nil, .nil⟩
  | terminal _ ih =>
      obtain ⟨other, rest, hlabel, hrest, rfl⟩ := List.forall₂_cons_left_iff.mp hakin
      obtain ⟨side, hside, hderives⟩ := ih hinside hrest
      exact ⟨.terminal other :: side, .cons (.terminal hlabel) hside, .terminal hderives⟩
  | @rule production _ _ _ hmem _ _ ihinner ihrest =>
      rw [List.all_cons, Bool.and_eq_true] at hinside
      obtain ⟨front, back, rfl, hfront, hback⟩ := exists_append_of_forall₂ hakin
      obtain ⟨inner, hinner, hderives⟩ := ihinner (exchange.of_mem hmem hinside.1).1 hfront
      obtain ⟨side, hside, hrest⟩ := ihrest hinside.2 hback
      have hother := exchange.mem_table hmem hinside.1 hinner
      exact ⟨.rule production.lhs :: side, .cons (.rule _) hside,
        Derives.rule_iff.mpr ⟨_, hother, rfl, front, back, rfl, hderives, hrest⟩⟩

theorem derives (h : Derives grammar.table symbols labels)
    (hinside : symbols.all (Symbol.within exchange.inside) = true)
    (hstay : symbols.all (Symbol.stays exchange.groups) = true)
    (hakin : List.Forall₂ (Lexicon.Akin exchange.groups) labels others) :
    Derives grammar.table symbols others := by
  obtain ⟨side, hside, hderives⟩ := exchange.exists_derives h hinside hakin
  rwa [Symbol.eq_of_all_stay hside hstay] at hderives

/-- What symbols yield, the symbols after the exchange yield after it, but for the
tokens that are exchanged. -/
theorem exists_yields {tokens others : List Token} {values : List Value}
    (h : Yields grammar.table symbols tokens values)
    (hinside : symbols.all (Symbol.within exchange.inside) = true)
    (hakin : List.Forall₂ (Token.Akin exchange.groups) tokens others) :
    ∃ side results, List.Forall₂ (Symbol.Akin exchange.groups) symbols side ∧
      List.Forall₂ (Value.Akin exchange.groups) values results ∧
      Yields grammar.table side others results := by
  induction h generalizing others with
  | nil =>
      obtain rfl := List.forall₂_nil_left_iff.mp hakin
      exact ⟨[], [], .nil, .nil, .nil⟩
  | terminal _ ih =>
      obtain ⟨other, rest, hother, hrest, rfl⟩ := List.forall₂_cons_left_iff.mp hakin
      obtain ⟨side, results, hside, hresults, hyields⟩ := ih hinside hrest
      exact ⟨.terminal other.kind :: side, .token other :: results,
        .cons (.terminal hother.1) hside, .cons (.token hother) hresults, .terminal hyields⟩
  | @rule production _ _ _ _ _ value hmem harguments hgives _ ihinner ihrest =>
      rw [List.all_cons, Bool.and_eq_true] at hinside
      obtain ⟨front, back, rfl, hfront, hback⟩ := exists_append_of_forall₂ hakin
      obtain ⟨inner, arguments, hinner, hakin, hyields⟩ :=
        ihinner (exchange.of_mem hmem hinside.1).1 hfront
      obtain ⟨side, results, hside, hresults, hrest⟩ := ihrest hinside.2 hback
      have hother := exchange.mem_table hmem hinside.1 hinner
      have hsame := exchange.gives hmem hinside.1 (matches_of_yields harguments) hakin hgives
      have hfirst : Says production.lhs front value :=
        Yields.single_iff.mpr ⟨_, hother, rfl, arguments, hyields, hsame⟩
      exact ⟨.rule production.lhs :: side, value :: results, .cons (.rule _) hside,
        .cons (.same value) hresults,
        Yields.rule_iff.mpr ⟨front, back, value, results, rfl, rfl, hfirst, hrest⟩⟩

/-- A phrase has the same value after the exchange. -/
theorem phrase {tokens others : List Token} (h : Says rule tokens value)
    (hinside : exchange.inside rule = true)
    (hakin : List.Forall₂ (Token.Akin exchange.groups) tokens others) :
    Says rule others value := by
  have hsymbol : [Symbol.rule rule].all (Symbol.within exchange.inside) = true := by
    simp [Symbol.within, hinside]
  obtain ⟨side, results, hside, hresults, hyields⟩ := exchange.exists_yields h hsymbol hakin
  obtain ⟨other, _, hother, ⟨⟩, rfl⟩ := List.forall₂_cons_left_iff.mp hresults
  rwa [Symbol.eq_of_all_stay hside rfl, hother.eq_of_shaped h.shaped] at hyields

section

variable {exchange} {last : Nat} (hinside : exchange.inside rule = true)
  (hakin : List.Forall₂ (Lexicon.Akin exchange.groups) labels others)

include hinside hakin

theorem generates (h : grammar.Generates rule labels) : grammar.Generates rule others :=
  exchange.derives h (by simp [Symbol.within, hinside]) rfl hakin

theorem begins (h : grammar.Begins rule labels) : grammar.Begins rule others := by
  obtain ⟨rest, hsentence⟩ := h
  have hsame : List.Forall₂ (Lexicon.Akin exchange.groups) rest rest :=
    List.forall₂_same.mpr fun _ _ => .inl rfl
  exact ⟨rest, generates hinside (List.rel_append hakin hsame) hsentence⟩

/-- The place of rejection stays after the exchange. -/
theorem rejectsAt (h : grammar.RejectsAt rule labels last) : grammar.RejectsAt rule others last := by
  have hback : List.Forall₂ (Lexicon.Akin exchange.groups) others labels :=
    hakin.flip.imp fun _ _ => Lexicon.Akin.symm
  have hlength := hakin.length_eq
  obtain ⟨hlt, hbefore, hafter⟩ := h
  refine ⟨by omega, fun earlier hearlier => ?_, ?_⟩
  · exact begins hinside (List.forall₂_take _ hakin) (hbefore earlier hearlier)
  · rcases hafter with hunviable | ⟨hend, hwhole⟩
    · exact .inl fun hviable => hunviable (begins hinside (List.forall₂_take _ hback) hviable)
    · exact .inr ⟨by omega, begins hinside hakin hwhole⟩

end

end Exchange

end SpokenKeys
