import SpokenKeys.Proofs.NumberWords
import SpokenKeys.Proofs.Phrases

/-!
Spoken numbers: the phrases of the number nonterminals are the words that name
numbers, and the value of a phrase is the number that its words name.
-/

namespace SpokenKeys

open Numeral

def integers (parts : List UInt64) : List Value := parts.map .integer

theorem sumArguments_integers (total : UInt64) (parts : List UInt64)
    (h : total.toNat + (parts.map UInt64.toNat).sum < UInt64.size) :
    sumArguments total (integers parts) =
      .ok (.ofNat (total.toNat + (parts.map UInt64.toNat).sum)) := by
  induction parts generalizing total with
  | nil =>
      rw [List.map_nil, List.sum_nil, Nat.add_zero, UInt64.ofNat_toNat]
      rfl
  | cons part parts ih =>
      rw [List.map_cons, List.sum_cons, ← Nat.add_assoc] at h ⊢
      have hlt : total.toNat + part.toNat < UInt64.size := by omega
      have hadd : scaleAndAdd total 1 part = .ok (.ofNat (total.toNat * 1 + part.toNat)) :=
        scaleAndAdd_ofNat total 1 part (by simpa using hlt)
      have htoNat : (UInt64.ofNat (total.toNat + part.toNat)).toNat = total.toNat + part.toNat :=
        UInt64.toNat_ofNat_of_lt' hlt
      rw [integers, List.map_cons, ← integers, sumArguments, hadd, Nat.mul_one]
      have hsum := ih (.ofNat (total.toNat + part.toNat)) (by rw [htoNat]; exact h)
      rw [htoNat] at hsum
      exact hsum

namespace Commands

variable {rule : Rule} {tokens : List Token} {side : List Symbol} {value : Value}
  {arguments : List Value} {parts : List UInt64} {size : Nat}

theorem group_gives (h : (parts.map UInt64.toNat).sum < UInt64.size) :
    Meaning.group.Gives (integers parts) (.integer (.ofNat (parts.map UInt64.toNat).sum)) := by
  have hzero : (0 : UInt64).toNat = 0 := rfl
  have hsum := sumArguments_integers 0 parts (by omega)
  rw [hzero, Nat.zero_add] at hsum
  exact Meaning.gives_group hsum

/-- A nonterminal whose phrases are the words of a table of numbers. -/
theorem says_numberWord (meaning : Meaning) (table : List (String × UInt64)) {expected : String}
    {find : String → Option UInt64}
    (hplain : meaning ≠ .input ∧ meaning ≠ .tolerantInput ∧ meaning ≠ .sleepPhrase)
    (hreader : meaning.reader = do
      let token ← ArgumentReader.token meaning.name
      .integer <$> Meaning.lookUp meaning.name expected find token.kind)
    (hfind : ∀ entry ∈ table, find entry.1 = some entry.2)
    (h : productions.filter (fun production => production.lhs == rule) =
      alternatives rule meaning ((table.map Prod.fst).map fun word => [t word])) :
    Says rule tokens value ↔ ∃ token, ∃ entry ∈ table,
      tokens = [token] ∧ token.kind = entry.1 ∧ value = .integer entry.2 := by
  have hgives {token : Token} {entry : String × UInt64} (hentry : entry ∈ table)
      (hkind : token.kind = entry.1) : meaning.Gives [.token token] (.integer entry.2) :=
    Meaning.gives_numberWord hplain hreader (hkind ▸ hfind entry hentry)
  rw [says_word meaning _ h]
  constructor
  · rintro ⟨token, rfl, hword, hvalue⟩
    obtain ⟨entry, hentry, hkind⟩ := List.mem_map.mp hword
    exact ⟨token, entry, hentry, rfl, hkind.symm, hvalue.unique (hgives hentry hkind.symm)⟩
  · rintro ⟨token, entry, hentry, rfl, hkind, rfl⟩
    exact ⟨token, rfl, hkind ▸ List.mem_map_of_mem hentry, hgives hentry hkind⟩

theorem says_small : Says .small tokens value ↔ ∃ token, ∃ entry ∈ Lexicon.smallNumbers,
    tokens = [token] ∧ token.kind = entry.1 ∧ value = .integer entry.2 :=
  says_numberWord .smallNumber Lexicon.smallNumbers (by simp) rfl (by decide) rfl

theorem says_ones : Says .ones tokens value ↔ ∃ token, ∃ entry ∈ digits,
    tokens = [token] ∧ token.kind = entry.1 ∧ value = .integer entry.2 :=
  says_numberWord .smallNumber digits (by simp) rfl (by decide) (by decide)

theorem says_tens : Says .tens tokens value ↔ ∃ token, ∃ entry ∈ Lexicon.tens,
    tokens = [token] ∧ token.kind = entry.1 ∧ value = .integer entry.2 :=
  says_numberWord .tens Lexicon.tens (by simp) rfl (by decide) rfl

theorem says_hundreds : Says .hundreds tokens value ↔ ∃ token hundred, ∃ entry ∈ digits,
    tokens = [token, hundred] ∧ token.kind = entry.1 ∧ hundred.kind = Lexicon.hundred ∧
      value = .integer (.ofNat (entry.2.toNat * 100)) := by
  have hgives {entry : String × UInt64} (hentry : entry ∈ digits) (hundred : Token) :
      Meaning.hundreds.Gives [.integer entry.2, .token hundred]
        (.integer (.ofNat (entry.2.toNat * 100))) := by
    have hsize : UInt64.size = 18446744073709551616 := rfl
    have hlt := digit_lt hentry
    have hscale : scaleAndAdd entry.2 100 0 = .ok (.ofNat (entry.2.toNat * 100 + 0)) :=
      scaleAndAdd_ofNat entry.2 100 0 (show entry.2.toNat * 100 + 0 < UInt64.size by omega)
    exact Meaning.gives_hundreds hscale _
  rw [says_iff .hundreds [[n .ones, t Lexicon.hundred]] rfl]
  constructor
  · rintro ⟨side, hside, arguments, hyields, hvalue⟩
    obtain rfl := List.mem_singleton.mp hside
    obtain ⟨front, back, first, more, rfl, rfl, hfirst, hrest⟩ := Yields.rule_iff.mp hyields
    obtain ⟨token, entry, hentry, rfl, hkind, rfl⟩ := says_ones.mp hfirst
    obtain ⟨hundred, rest, others, rfl, rfl, hhundred, hnil⟩ := Yields.terminal_iff.mp hrest
    obtain ⟨rfl, rfl⟩ := Yields.nil_iff.mp hnil
    exact ⟨token, hundred, entry, hentry, rfl, hkind, hhundred,
      hvalue.unique (hgives hentry hundred)⟩
  · rintro ⟨token, hundred, entry, hentry, rfl, hkind, hhundred, rfl⟩
    refine ⟨_, List.mem_singleton_self _, _, ?_, hgives hentry hundred⟩
    exact Yields.rule_iff.mpr ⟨[token], [hundred], _, _, rfl, rfl,
      says_ones.mpr ⟨token, entry, hentry, rfl, hkind, rfl⟩,
      Yields.terminal_iff.mpr ⟨hundred, [], [], rfl, rfl, hhundred, .nil⟩⟩

/-- How numbers below one hundred are said. -/
def pairSides : List (List Symbol) := [[n .small], [n .tens], [n .tens, n .ones]]

/-- What is said so are the words of a number below one hundred. -/
theorem namesPair_of_yields (hside : side ∈ pairSides)
    (h : Yields grammar.table side tokens arguments) :
    ∃ parts, arguments = integers parts ∧
      NamesPair (tokens.map Token.kind) (parts.map UInt64.toNat).sum := by
  simp only [pairSides, List.mem_cons, List.not_mem_nil, or_false] at hside
  rcases hside with rfl | rfl | rfl
  · obtain ⟨value, rfl, hvalue⟩ := Yields.last_iff.mp h
    obtain ⟨token, entry, hentry, rfl, hkind, rfl⟩ := says_small.mp hvalue
    refine ⟨[entry.2], rfl, ?_⟩
    simpa [hkind] using NamesPair.small hentry
  · obtain ⟨value, rfl, hvalue⟩ := Yields.last_iff.mp h
    obtain ⟨token, entry, hentry, rfl, hkind, rfl⟩ := says_tens.mp hvalue
    refine ⟨[entry.2], rfl, ?_⟩
    simpa [hkind] using NamesPair.tens hentry
  · obtain ⟨front, back, first, more, rfl, rfl, hfirst, hrest⟩ := Yields.rule_iff.mp h
    obtain ⟨last, rfl, hlast⟩ := Yields.last_iff.mp hrest
    obtain ⟨token, tens, htens, rfl, hkind, rfl⟩ := says_tens.mp hfirst
    obtain ⟨token', ones, hones, rfl, hkind', rfl⟩ := says_ones.mp hlast
    refine ⟨[tens.2, ones.2], rfl, ?_⟩
    simpa [hkind, hkind'] using NamesPair.both htens hones

theorem yields_of_namesPair (h : NamesPair (tokens.map Token.kind) size) :
    ∃ side ∈ pairSides, ∃ parts, (parts.map UInt64.toNat).sum = size ∧
      Yields grammar.table side tokens (integers parts) := by
  generalize hwords : tokens.map Token.kind = words at h
  cases h with
  | @small entry hentry =>
      obtain ⟨token, rfl, hkind⟩ := List.map_eq_singleton_iff.mp hwords
      exact ⟨[n .small], by simp [pairSides], [entry.2], by simp,
        says_small.mpr ⟨token, entry, hentry, rfl, hkind, rfl⟩⟩
  | @tens entry hentry =>
      obtain ⟨token, rfl, hkind⟩ := List.map_eq_singleton_iff.mp hwords
      exact ⟨[n .tens], by simp [pairSides], [entry.2], by simp,
        says_tens.mpr ⟨token, entry, hentry, rfl, hkind, rfl⟩⟩
  | @both tens ones htens hones =>
      obtain ⟨token, rest, rfl, hkind, hrest⟩ := List.map_eq_cons_iff.mp hwords
      obtain ⟨last, rfl, hlast⟩ := List.map_eq_singleton_iff.mp hrest
      refine ⟨[n .tens, n .ones], by simp [pairSides], [tens.2, ones.2], by simp, ?_⟩
      exact Yields.rule_iff.mpr ⟨[token], [last], _, _, rfl, rfl,
        says_tens.mpr ⟨token, tens, htens, rfl, hkind, rfl⟩,
        says_ones.mpr ⟨last, ones, hones, rfl, hlast, rfl⟩⟩

/-- How numbers below one thousand are said. -/
def groupSides : List (List Symbol) :=
  pairSides ++ [n .hundreds] :: pairSides.map fun side => n .hundreds :: side

theorem toNat_hundreds {entry : String × UInt64} (h : entry ∈ digits) :
    (UInt64.ofNat (entry.2.toNat * 100)).toNat = entry.2.toNat * 100 := by
  have hsize : UInt64.size = 18446744073709551616 := rfl
  have hlt := digit_lt h
  exact UInt64.toNat_ofNat_of_lt' (by omega)

@[inherit_doc namesPair_of_yields]
theorem namesGroup_of_yields (hside : side ∈ groupSides)
    (h : Yields grammar.table side tokens arguments) :
    ∃ parts, arguments = integers parts ∧
      NamesGroup (tokens.map Token.kind) (parts.map UInt64.toNat).sum := by
  rcases List.mem_append.mp hside with hpair | hside
  · obtain ⟨parts, rfl, hnames⟩ := namesPair_of_yields hpair h
    exact ⟨parts, rfl, .pair hnames⟩
  rcases List.mem_cons.mp hside with rfl | hboth
  · obtain ⟨value, rfl, hphrase⟩ := Yields.last_iff.mp h
    obtain ⟨token, hundred, entry, hentry, rfl, hkind, hhundred, rfl⟩ := says_hundreds.mp hphrase
    refine ⟨[.ofNat (entry.2.toNat * 100)], rfl, ?_⟩
    rw [List.map_singleton, List.sum_singleton, toNat_hundreds hentry]
    simpa [hkind, hhundred] using NamesGroup.hundreds hentry
  · obtain ⟨pair, hpair, rfl⟩ := List.mem_map.mp hboth
    obtain ⟨front, back, first, more, rfl, rfl, hfirst, hrest⟩ := Yields.rule_iff.mp h
    obtain ⟨token, hundred, entry, hentry, rfl, hkind, hhundred, rfl⟩ := says_hundreds.mp hfirst
    obtain ⟨parts, rfl, hnames⟩ := namesPair_of_yields hpair hrest
    refine ⟨.ofNat (entry.2.toNat * 100) :: parts, rfl, ?_⟩
    rw [List.map_cons, List.sum_cons, toNat_hundreds hentry]
    simpa [hkind, hhundred] using NamesGroup.both hentry hnames

theorem yields_of_namesGroup (h : NamesGroup (tokens.map Token.kind) size) :
    ∃ side ∈ groupSides, ∃ parts, (parts.map UInt64.toNat).sum = size ∧
      Yields grammar.table side tokens (integers parts) := by
  generalize hwords : tokens.map Token.kind = words at h
  cases h with
  | pair hpair =>
      rw [← hwords] at hpair
      obtain ⟨side, hside, hparts⟩ := yields_of_namesPair hpair
      exact ⟨side, List.mem_append_left _ hside, hparts⟩
  | @hundreds entry hentry =>
      obtain ⟨token, rest, rfl, hkind, hrest⟩ := List.map_eq_cons_iff.mp hwords
      obtain ⟨hundred, rfl, hhundred⟩ := List.map_eq_singleton_iff.mp hrest
      refine ⟨[n .hundreds], by simp [groupSides], [.ofNat (entry.2.toNat * 100)], ?_,
        says_hundreds.mpr ⟨token, hundred, entry, hentry, rfl, hkind, hhundred, rfl⟩⟩
      rw [List.map_singleton, List.sum_singleton, toNat_hundreds hentry]
  | @both entry words pair hentry hpair =>
      obtain ⟨token, rest, rfl, hkind, hrest⟩ := List.map_eq_cons_iff.mp hwords
      obtain ⟨hundred, rest, rfl, hhundred, rfl⟩ := List.map_eq_cons_iff.mp hrest
      obtain ⟨side, hside, parts, hsum, hyields⟩ := yields_of_namesPair hpair
      refine ⟨n .hundreds :: side, by simp [groupSides, hside],
        .ofNat (entry.2.toNat * 100) :: parts, ?_, ?_⟩
      · rw [List.map_cons, List.sum_cons, toNat_hundreds hentry, hsum]
      · exact Yields.rule_iff.mpr ⟨[token, hundred], rest, _, _, rfl, rfl,
          says_hundreds.mpr ⟨token, hundred, entry, hentry, rfl, hkind, hhundred, rfl⟩, hyields⟩

/-- The groups are the words of the numbers below one thousand. -/
theorem says_group : Says .group tokens value ↔
    ∃ size, NamesGroup (tokens.map Token.kind) size ∧ value = .integer (.ofNat size) := by
  have hsize : UInt64.size = 18446744073709551616 := rfl
  have hgives {parts : List UInt64} (hlt : (parts.map UInt64.toNat).sum < 1000) :
      Meaning.group.Gives (integers parts) (.integer (.ofNat (parts.map UInt64.toNat).sum)) :=
    group_gives (by omega)
  rw [says_iff .group groupSides rfl]
  constructor
  · rintro ⟨side, hside, arguments, hyields, hvalue⟩
    obtain ⟨parts, rfl, hnames⟩ := namesGroup_of_yields hside hyields
    exact ⟨_, hnames, hvalue.unique (hgives hnames.within.1)⟩
  · rintro ⟨size, hnames, rfl⟩
    obtain ⟨side, hside, parts, rfl, hyields⟩ := yields_of_namesGroup hnames
    exact ⟨side, hside, _, hyields, hgives hnames.within.1⟩

theorem says_group_of_spell (hlt : size < 1000)
    (hkinds : tokens.map Token.kind = spell size) : Says .group tokens (.integer (.ofNat size)) :=
  says_group.mpr ⟨size, hkinds ▸ namesGroup_spell hlt, rfl⟩

/-- A group, a scale word, and nothing or a smaller number. -/
theorem says_scaled (scale : Scale) : Says scale.rule tokens value ↔
    ∃ front keyword back head rest, tokens = front ++ keyword :: back ∧
      keyword.kind = scale.word ∧ Says .group front head ∧
      (back = [] ∧ rest = [] ∨
        ∃ tail ∈ scale.tails, ∃ inner, Says tail back inner ∧ rest = [inner]) ∧
      (Meaning.scaled scale).Gives (head :: .token keyword :: rest) value := by
  have hsides : productions.filter (fun production => production.lhs == scale.rule) =
      numbers.scaled scale.rule scale scale.tails := by
    cases scale <;> rfl
  rw [says_iff (.scaled scale) _ hsides]
  constructor
  · rintro ⟨side, hside, arguments, hyields, hvalue⟩
    rcases List.mem_cons.mp hside with rfl | htailed
    · obtain ⟨front, back, head, more, rfl, rfl, hhead, hrest⟩ := Yields.rule_iff.mp hyields
      obtain ⟨keyword, back, rest, rfl, rfl, hword, hnil⟩ := Yields.terminal_iff.mp hrest
      exact ⟨front, keyword, back, head, rest, rfl, hword, hhead, .inl (Yields.nil_iff.mp hnil),
        hvalue⟩
    · obtain ⟨tail, htail, rfl⟩ := List.mem_map.mp htailed
      obtain ⟨front, back, head, more, rfl, rfl, hhead, hrest⟩ := Yields.rule_iff.mp hyields
      obtain ⟨keyword, back, rest, rfl, rfl, hword, hback⟩ := Yields.terminal_iff.mp hrest
      obtain ⟨inner, rfl, hinner⟩ := Yields.last_iff.mp hback
      exact ⟨front, keyword, back, head, _, rfl, hword, hhead,
        .inr ⟨tail, htail, inner, hinner, rfl⟩, hvalue⟩
  · rintro ⟨front, keyword, back, head, rest, rfl, hword, hhead, hrest, hvalue⟩
    rcases hrest with ⟨rfl, rfl⟩ | ⟨tail, htail, inner, hinner, rfl⟩
    · refine ⟨_, List.mem_cons_self, _, ?_, hvalue⟩
      exact Yields.rule_iff.mpr ⟨front, [keyword], head, _, rfl, rfl, hhead,
        Yields.terminal_iff.mpr ⟨keyword, [], [], rfl, rfl, hword, .nil⟩⟩
    · refine ⟨_, List.mem_cons_of_mem _ (List.mem_map_of_mem htail), _, ?_, hvalue⟩
      exact Yields.rule_iff.mpr ⟨front, keyword :: back, head, _, rfl, rfl, hhead,
        Yields.terminal_iff.mpr ⟨keyword, back, [inner], rfl, rfl, hword, hinner⟩⟩

theorem scaled_gives (scale : Scale) {head : Nat} {keyword : Value} {rest : List Value}
    (hhead : head < 1000) (hsize : size < scale.factor.toNat)
    (hrest : rest = [] ∧ size = 0 ∨ rest = [.integer (.ofNat size)]) :
    (Meaning.scaled scale).Gives (.integer (.ofNat head) :: keyword :: rest)
      (.integer (.ofNat (head * scale.factor.toNat + size))) := by
  have hlimit : 1000 * scale.factor.toNat < UInt64.size := by cases scale <;> decide
  have hle : (head + 1) * scale.factor.toNat ≤ 1000 * scale.factor.toNat :=
    Nat.mul_le_mul_right _ hhead
  rw [Nat.succ_mul] at hle
  have hhead' : (UInt64.ofNat head).toNat = head := UInt64.toNat_ofNat_of_lt' (by omega)
  have hsize' : (UInt64.ofNat size).toNat = size := UInt64.toNat_ofNat_of_lt' (by omega)
  have hscale : scaleAndAdd (.ofNat head) scale.factor (.ofNat size) =
      .ok (.ofNat (head * scale.factor.toNat + size)) := by
    have hsum := scaleAndAdd_ofNat (.ofNat head) scale.factor (.ofNat size)
      (by rw [hhead', hsize']; omega)
    rwa [hhead', hsize'] at hsum
  rcases hrest with ⟨rfl, rfl⟩ | rfl
  · exact Meaning.gives_scaled Reads.no_integer hscale
  · exact Meaning.gives_scaled (Reads.integer? _ _) hscale

/-- The phrases of the number nonterminals are the words that name numbers. -/
theorem says_numeral (hrule : rule ∈ rules) : Says rule tokens value ↔
    ∃ size, Names rule (tokens.map Token.kind) size ∧ value = .integer (.ofNat size) := by
  constructor
  · intro hphrase
    induction hgroups : groups rule using Nat.strongRecOn generalizing rule tokens value with
    | ind count ih =>
        rcases mem_rules_iff.mp hrule with rfl | ⟨scale, rfl⟩
        · obtain ⟨size, hnames, rfl⟩ := says_group.mp hphrase
          exact ⟨size, .group hnames, rfl⟩
        · obtain ⟨front, keyword, back, head, rest, rfl, hword, hhead, hrest, hvalue⟩ :=
            (says_scaled scale).mp hphrase
          obtain ⟨size, hnames, rfl⟩ := says_group.mp hhead
          rw [List.map_append, List.map_cons, hword]
          rcases hrest with ⟨rfl, rfl⟩ | ⟨tail, htail, inner, hinner, rfl⟩
          · exact ⟨_, .round scale hnames,
              hvalue.unique (scaled_gives scale hnames.within.1 scale.factor_pos
                (.inl ⟨rfl, rfl⟩))⟩
          · obtain ⟨hle, hlt⟩ := pow_groups_le htail
            obtain ⟨rest, hrest, rfl⟩ :=
              ih _ (hgroups ▸ hlt) (mem_rules_of_mem_tails htail) hinner rfl
            have hsize := Nat.lt_of_lt_of_le hrest.within.1 hle
            exact ⟨_, .scaled scale hnames htail hrest,
              hvalue.unique (scaled_gives scale hnames.within.1 hsize (.inr rfl))⟩
  · rintro ⟨size, hnames, rfl⟩
    generalize hwords : tokens.map Token.kind = words at hnames
    induction hnames generalizing tokens with
    | group hgroup => exact says_group.mpr ⟨_, hwords ▸ hgroup, rfl⟩
    | @round scale words size hgroup =>
        obtain ⟨front, last, rfl, rfl, hlast⟩ := List.map_eq_append_iff.mp hwords
        obtain ⟨keyword, rfl, hword⟩ := List.map_eq_singleton_iff.mp hlast
        exact (says_scaled scale).mpr ⟨front, keyword, [], _, [], rfl, hword,
          says_group.mpr ⟨size, hgroup, rfl⟩, .inl ⟨rfl, rfl⟩,
          scaled_gives scale hgroup.within.1 scale.factor_pos (.inl ⟨rfl, rfl⟩)⟩
    | @scaled scale tail front back head size hgroup htail hnames ih =>
        obtain ⟨front, rest, rfl, rfl, hrest⟩ := List.map_eq_append_iff.mp hwords
        obtain ⟨keyword, back, rfl, hword, rfl⟩ := List.map_eq_cons_iff.mp hrest
        have hsize := Nat.lt_of_lt_of_le hnames.within.1 (pow_groups_le htail).1
        exact (says_scaled scale).mpr ⟨front, keyword, back, _, _, rfl, hword,
          says_group.mpr ⟨head, hgroup, rfl⟩,
          .inr ⟨tail, htail, _, ih (mem_rules_of_mem_tails htail) rfl, rfl⟩,
          scaled_gives scale hgroup.within.1 hsize (.inr rfl)⟩

theorem toNat_ofNat_of_names {words : List String} (h : Names rule words size) :
    (UInt64.ofNat size).toNat = size := by
  have hgroups : 1000 ^ groups rule < UInt64.size := by cases rule <;> decide
  exact UInt64.toNat_ofNat_of_lt' (Nat.lt_trans h.within.1 hgroups)

/-- A keyword and a number that is named are typed as the digits of the number. -/
theorem says_number : Says .number tokens value ↔ ∃ keyword rest, ∃ rule ∈ rules, ∃ size,
    tokens = keyword :: rest ∧ keyword.kind = Lexicon.number ∧
      Names rule (rest.map Token.kind) size ∧ value = .node (.text (toString size)) := by
  have hgives (keyword : Token) {rule : Rule} {words : List String} {size : Nat}
      (hnames : Names rule words size) :
      Meaning.number.Gives [.token keyword, .integer (.ofNat size)]
        (.node (.text (toString size))) := by
    intro session
    have happly : Meaning.number.apply session [.token keyword, .integer (.ofNat size)] =
        .ok ⟨.node (.text (toString (UInt64.ofNat size).toNat)), session, []⟩ := rfl
    rwa [toNat_ofNat_of_names hnames] at happly
  rw [says_iff .number (rules.map fun rule => [t Lexicon.number, n rule]) rfl]
  constructor
  · rintro ⟨side, hside, arguments, hyields, hvalue⟩
    obtain ⟨rule, hrule, rfl⟩ := List.mem_map.mp hside
    obtain ⟨keyword, rest, more, rfl, rfl, hword, hrest⟩ := Yields.terminal_iff.mp hyields
    obtain ⟨inner, rfl, hinner⟩ := Yields.last_iff.mp hrest
    obtain ⟨size, hnames, rfl⟩ := (says_numeral hrule).mp hinner
    exact ⟨keyword, rest, rule, hrule, size, rfl, hword, hnames,
      hvalue.unique (hgives keyword hnames)⟩
  · rintro ⟨keyword, rest, rule, hrule, size, rfl, hword, hnames, rfl⟩
    have hinner := (says_numeral hrule).mpr ⟨size, hnames, rfl⟩
    exact ⟨_, List.mem_map_of_mem hrule, _,
      Yields.terminal_iff.mpr ⟨keyword, rest, _, rfl, rfl, hword, hinner⟩, hgives keyword hnames⟩

end Commands

end SpokenKeys
