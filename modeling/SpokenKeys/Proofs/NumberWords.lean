import Mathlib.Algebra.GroupWithZero.Nat
import SpokenKeys.Grammar.Rule
import SpokenKeys.Meaning
import SpokenKeys.Numeral

/-!
Number words, without any grammar: which words name which number. Read from left
to right the words are worth the number that they name, and if none of them has
a homophone they are its spelling. Every number below a million millions is
named by its spelling.
-/

namespace SpokenKeys

namespace Scale

/-- The nonterminal of the numbers that have the scale word. -/
def rule : Scale → Rule
  | .thousand => .thousands
  | .million => .millions
  | .billion => .billions

/-- What may follow the scale word. -/
def tails : Scale → List Rule
  | .thousand => [.group]
  | .million => [.group, .thousands]
  | .billion => [.group, .thousands, .millions]

theorem factor_pos (scale : Scale) : 0 < scale.factor.toNat := by cases scale <;> decide

end Scale

namespace Numeral

/-- The nonterminals of numbers. -/
def rules : List Rule := [.group, .thousands, .millions, .billions]

/-- How many groups of three digits the numbers of a nonterminal can have. -/
def groups : Rule → Nat
  | .group => 1
  | .thousands => 2
  | .millions => 3
  | .billions => 4
  | _ => 0

/-- One to nine, with the words for them. -/
def digits : List (String × UInt64) :=
  Lexicon.smallNumbers.filter fun entry => Lexicon.onesWords.contains entry.1

/-- The words name a number below one hundred. -/
inductive NamesPair : List String → Nat → Prop where
  | small {entry : String × UInt64} :
      entry ∈ Lexicon.smallNumbers → NamesPair [entry.1] entry.2.toNat
  | tens {entry : String × UInt64} : entry ∈ Lexicon.tens → NamesPair [entry.1] entry.2.toNat
  | both {tens ones : String × UInt64} : tens ∈ Lexicon.tens → ones ∈ digits →
      NamesPair [tens.1, ones.1] (tens.2.toNat + ones.2.toNat)

/-- The words name a number below one thousand. -/
inductive NamesGroup : List String → Nat → Prop where
  | pair {words : List String} {size : Nat} : NamesPair words size → NamesGroup words size
  | hundreds {entry : String × UInt64} :
      entry ∈ digits → NamesGroup [entry.1, Lexicon.hundred] (entry.2.toNat * 100)
  | both {entry : String × UInt64} {words : List String} {size : Nat} :
      entry ∈ digits → NamesPair words size →
      NamesGroup (entry.1 :: Lexicon.hundred :: words) (entry.2.toNat * 100 + size)

/-- The words name a number as a nonterminal has it: a group, or a group with a
scale word and nothing or a smaller number after it. -/
inductive Names : Rule → List String → Nat → Prop where
  | group {words : List String} {size : Nat} : NamesGroup words size → Names .group words size
  | round (scale : Scale) {words : List String} {size : Nat} : NamesGroup words size →
      Names scale.rule (words ++ [scale.word]) (size * scale.factor.toNat)
  | scaled (scale : Scale) {tail : Rule} {front back : List String} {head size : Nat} :
      NamesGroup front head → tail ∈ scale.tails → Names tail back size →
      Names scale.rule (front ++ scale.word :: back) (head * scale.factor.toNat + size)

variable {rule tail : Rule} {words front back : List String} {size head total current : Nat}
  {entry : String × UInt64} {word : String}

theorem mem_rules_iff : rule ∈ rules ↔ rule = .group ∨ ∃ scale : Scale, rule = scale.rule := by
  constructor
  · intro h
    simp only [rules, List.mem_cons, List.not_mem_nil, or_false] at h
    rcases h with rfl | rfl | rfl | rfl
    · exact .inl rfl
    · exact .inr ⟨.thousand, rfl⟩
    · exact .inr ⟨.million, rfl⟩
    · exact .inr ⟨.billion, rfl⟩
  · rintro (rfl | ⟨scale, rfl⟩)
    · decide
    · cases scale <;> decide

theorem mem_rules_of_mem_tails {scale : Scale} (h : tail ∈ scale.tails) : tail ∈ rules := by
  have htails : ∀ tail ∈ scale.tails, tail ∈ rules := by cases scale <;> decide
  exact htails tail h

theorem digit_lt (h : entry ∈ digits) : entry.2.toNat < 10 := by
  have hdigits : ∀ entry ∈ digits, entry.2.toNat < 10 := by decide
  exact hdigits entry h

theorem NamesPair.within (h : NamesPair words size) : size < 100 ∧ words.length ≤ 2 := by
  have hsmall : ∀ entry ∈ Lexicon.smallNumbers, entry.2.toNat < 20 := by decide
  have htens : ∀ entry ∈ Lexicon.tens, entry.2.toNat ≤ 90 := by decide
  cases h with
  | small hentry => exact ⟨Nat.lt_trans (hsmall _ hentry) (by decide), by simp⟩
  | tens hentry => exact ⟨Nat.lt_of_le_of_lt (htens _ hentry) (by decide), by simp⟩
  | both hfirst hlast =>
      have hfirst := htens _ hfirst
      have hlast := digit_lt hlast
      exact ⟨by omega, by simp⟩

theorem NamesGroup.within (h : NamesGroup words size) : size < 1000 ∧ words.length ≤ 4 := by
  cases h with
  | pair hpair =>
      obtain ⟨hlt, hlength⟩ := hpair.within
      exact ⟨by omega, by omega⟩
  | hundreds hentry =>
      have hlt := digit_lt hentry
      exact ⟨by omega, by simp⟩
  | both hentry hpair =>
      have hlt := digit_lt hentry
      obtain ⟨hpair, hlength⟩ := hpair.within
      simp only [List.length_cons]
      exact ⟨by omega, by omega⟩

theorem pow_groups (scale : Scale) :
    1000 ^ groups scale.rule = 1000 * scale.factor.toNat ∧ 2 ≤ groups scale.rule := by
  cases scale <;> decide

/-- What follows a scale word is less than what the word multiplies by. -/
theorem pow_groups_le {scale : Scale} (h : tail ∈ scale.tails) :
    1000 ^ groups tail ≤ scale.factor.toNat ∧ groups tail < groups scale.rule := by
  have htails : ∀ tail ∈ scale.tails,
      1000 ^ groups tail ≤ scale.factor.toNat ∧ groups tail < groups scale.rule := by
    cases scale <;> decide
  exact htails tail h

theorem scaled_lt (scale : Scale) (hhead : head < 1000) (hsize : size < scale.factor.toNat) :
    head * scale.factor.toNat + size < 1000 ^ groups scale.rule := by
  have hle : (head + 1) * scale.factor.toNat ≤ 1000 * scale.factor.toNat :=
    Nat.mul_le_mul_right _ hhead
  rw [(pow_groups scale).1]
  rw [Nat.succ_mul] at hle
  omega

/-- A number has no more digits and words than its groups. -/
theorem Names.within (h : Names rule words size) :
    size < 1000 ^ groups rule ∧ words.length < 5 * groups rule := by
  induction h with
  | group hgroup =>
      obtain ⟨hlt, hlength⟩ := hgroup.within
      exact ⟨by rw [groups]; omega, by rw [groups]; omega⟩
  | round scale hgroup =>
      obtain ⟨hlt, hlength⟩ := hgroup.within
      obtain ⟨-, hgroups⟩ := pow_groups scale
      refine ⟨scaled_lt scale hlt scale.factor_pos, ?_⟩
      rw [List.length_append, List.length_singleton]
      omega
  | scaled scale hgroup htail _ ih =>
      obtain ⟨hlt, hlength⟩ := hgroup.within
      obtain ⟨hle, hgroups⟩ := pow_groups_le htail
      refine ⟨scaled_lt scale hlt (Nat.lt_of_lt_of_le ih.1 hle), ?_⟩
      rw [List.length_append, List.length_cons]
      omega

theorem Names.length_lt (hrule : rule ∈ rules) (h : Names rule words size) :
    words.length < 20 := by
  have hgroups : ∀ rule ∈ rules, 5 * groups rule ≤ 20 := by decide
  exact Nat.lt_of_lt_of_le h.within.2 (hgroups rule hrule)

/-- A number word adds to the current group. -/
theorem step_word {value : Nat} (hhundred : word ≠ "hundred")
    (hscale : Reading.scale? word = none) (hvalue : wordValues.lookup word = some value) :
    Reading.step ⟨total, current⟩ word = ⟨total, current + value⟩ := by
  rw [Reading.step, if_neg hhundred, hscale]
  simp only [hvalue, Option.getD_some]

theorem step_small (h : entry ∈ Lexicon.smallNumbers) :
    Reading.step ⟨total, current⟩ entry.1 = ⟨total, current + entry.2.toNat⟩ := by
  have hwords : ∀ entry ∈ Lexicon.smallNumbers, entry.1 ≠ "hundred" ∧
      Reading.scale? entry.1 = none ∧ wordValues.lookup entry.1 = some entry.2.toNat := by
    decide
  obtain ⟨hhundred, hscale, hvalue⟩ := hwords entry h
  exact step_word hhundred hscale hvalue

theorem step_tens (h : entry ∈ Lexicon.tens) :
    Reading.step ⟨total, current⟩ entry.1 = ⟨total, current + entry.2.toNat⟩ := by
  have hwords : ∀ entry ∈ Lexicon.tens, entry.1 ≠ "hundred" ∧
      Reading.scale? entry.1 = none ∧ wordValues.lookup entry.1 = some entry.2.toNat := by
    decide
  obtain ⟨hhundred, hscale, hvalue⟩ := hwords entry h
  exact step_word hhundred hscale hvalue

theorem step_digit (h : entry ∈ digits) :
    Reading.step ⟨total, current⟩ entry.1 = ⟨total, current + entry.2.toNat⟩ :=
  step_small (List.mem_filter.mp h).1

theorem step_hundred :
    Reading.step ⟨total, current⟩ Lexicon.hundred = ⟨total, current * 100⟩ := if_pos rfl

theorem step_scale (scale : Scale) : Reading.step ⟨total, current⟩ scale.word =
    ⟨total + current * scale.factor.toNat, 0⟩ := by
  cases scale <;> rfl

theorem NamesPair.read (h : NamesPair words size) :
    words.foldl Reading.step ⟨total, current⟩ = ⟨total, current + size⟩ := by
  cases h with
  | small hentry => exact step_small hentry
  | tens hentry => exact step_tens hentry
  | both hfirst hlast =>
      rw [List.foldl_cons, List.foldl_cons, List.foldl_nil, step_tens hfirst, step_digit hlast,
        Nat.add_assoc]

/-- A group is read on from the beginning of a group. -/
theorem NamesGroup.read (h : NamesGroup words size) :
    words.foldl Reading.step ⟨total, 0⟩ = ⟨total, size⟩ := by
  cases h with
  | pair hpair => rw [hpair.read, Nat.zero_add]
  | hundreds hentry =>
      rw [List.foldl_cons, List.foldl_cons, List.foldl_nil, step_digit hentry, step_hundred,
        Nat.zero_add]
  | both hentry hpair =>
      rw [List.foldl_cons, List.foldl_cons, step_digit hentry, step_hundred, hpair.read,
        Nat.zero_add]

theorem Names.read (h : Names rule words size) (total : Nat) :
    (words.foldl Reading.step ⟨total, 0⟩).value = total + size := by
  induction h generalizing total with
  | group hgroup =>
      rw [hgroup.read]
      rfl
  | round scale hgroup =>
      rw [List.foldl_append, hgroup.read, List.foldl_cons, step_scale]
      rfl
  | scaled scale hgroup _ _ ih =>
      rw [List.foldl_append, hgroup.read, List.foldl_cons, step_scale, ih, Nat.add_assoc]

/-- Words are worth the number that they name. -/
theorem Names.value_eq (h : Names rule words size) : value words = size := by
  rw [value, h.read 0, Nat.zero_add]

/-- Whether a word is neither zero nor a homophone. -/
def isPlain (word : String) : Bool := !(["zero", "to", "for"].contains word)

/-- The groups of a number in words, the empty ones left out. -/
def spellGroups (n : Nat) : List String :=
  spellScaled (n / 1000000000) "billion" ++
    spellScaled (n / 1000000 % 1000) "million" ++
    spellScaled (n / 1000 % 1000) "thousand" ++
    spellGroup (n % 1000)

theorem spell_eq (h : size ≠ 0) : spell size = spellGroups size := if_neg h

theorem spellGroups_of_lt (h : size < 1000) : spellGroups size = spellGroup size := by
  have hbillion : size / 1000000000 = 0 := by omega
  have hmillion : size / 1000000 % 1000 = 0 := by omega
  have hthousand : size / 1000 % 1000 = 0 := by omega
  rw [spellGroups, hbillion, hmillion, hthousand, Nat.mod_eq_of_lt h]
  rfl

theorem spellScaled_of_ne_zero (h : size ≠ 0) (scale : String) :
    spellScaled size scale = spellGroup size ++ [scale] := if_neg h

/-- A number with a scale word is spelled as the group before the word, the word,
and what is left. -/
theorem spellGroups_scaled (scale : Scale) (hpos : head ≠ 0) (hlt : head < 1000)
    (hsize : size < scale.factor.toNat) :
    spellGroups (head * scale.factor.toNat + size) =
      spellGroup head ++ scale.word :: spellGroups size := by
  cases scale with
  | thousand =>
      have hfactor : Scale.thousand.factor.toNat = 1000 := rfl
      rw [hfactor] at hsize ⊢
      have hbillion : (head * 1000 + size) / 1000000000 = 0 := by omega
      have hmillion : (head * 1000 + size) / 1000000 % 1000 = 0 := by omega
      have hthousand : (head * 1000 + size) / 1000 % 1000 = head := by omega
      have hgroup : (head * 1000 + size) % 1000 = size := by omega
      rw [spellGroups_of_lt hsize, spellGroups, hbillion, hmillion, hthousand, hgroup,
        spellScaled_of_ne_zero hpos]
      simp [spellScaled, Scale.word, Lexicon.thousand]
  | million =>
      have hfactor : Scale.million.factor.toNat = 1000000 := rfl
      rw [hfactor] at hsize ⊢
      have hbillion : (head * 1000000 + size) / 1000000000 = size / 1000000000 := by omega
      have hmillion : (head * 1000000 + size) / 1000000 % 1000 = head := by omega
      have hthousand : (head * 1000000 + size) / 1000 % 1000 = size / 1000 % 1000 := by omega
      have hgroup : (head * 1000000 + size) % 1000 = size % 1000 := by omega
      have hbillion' : size / 1000000000 = 0 := by omega
      have hmillion' : size / 1000000 % 1000 = 0 := by omega
      rw [spellGroups, spellGroups, hbillion, hmillion, hthousand, hgroup, hbillion', hmillion',
        spellScaled_of_ne_zero hpos]
      simp [spellScaled, Scale.word, Lexicon.million]
  | billion =>
      have hfactor : Scale.billion.factor.toNat = 1000000000 := rfl
      rw [hfactor] at hsize ⊢
      have hbillion : (head * 1000000000 + size) / 1000000000 = head := by omega
      have hmillion : (head * 1000000000 + size) / 1000000 % 1000 = size / 1000000 % 1000 := by
        omega
      have hthousand : (head * 1000000000 + size) / 1000 % 1000 = size / 1000 % 1000 := by omega
      have hgroup : (head * 1000000000 + size) % 1000 = size % 1000 := by omega
      have hbillion' : size / 1000000000 = 0 := by omega
      rw [spellGroups, spellGroups, hbillion, hmillion, hthousand, hgroup, hbillion',
        spellScaled_of_ne_zero hpos]
      simp [spellScaled, Scale.word, Lexicon.billion]

theorem NamesPair.eq_spellPair (h : NamesPair words size)
    (hplain : ∀ word ∈ words, isPlain word = true) : size ≠ 0 ∧ words = spellPair size := by
  have hsmall : ∀ entry ∈ Lexicon.smallNumbers, isPlain entry.1 = true →
      entry.2.toNat ≠ 0 ∧ [entry.1] = spellPair entry.2.toNat := by decide
  have htens : ∀ entry ∈ Lexicon.tens,
      entry.2.toNat ≠ 0 ∧ [entry.1] = spellPair entry.2.toNat := by decide
  have hboth : ∀ tens ∈ Lexicon.tens, ∀ ones ∈ digits, isPlain ones.1 = true →
      tens.2.toNat + ones.2.toNat ≠ 0 ∧
        [tens.1, ones.1] = spellPair (tens.2.toNat + ones.2.toNat) := by decide +kernel
  cases h with
  | small hentry => exact hsmall _ hentry (hplain _ (by simp))
  | tens hentry => exact htens _ hentry
  | both hfirst hlast => exact hboth _ hfirst _ hlast (hplain _ (by simp))

theorem digit_eq_wordFor (h : entry ∈ digits) :
    entry.2.toNat ≠ 0 ∧ (isPlain entry.1 = true → entry.1 = wordFor entry.2.toNat) := by
  have hdigits : ∀ entry ∈ digits, entry.2.toNat ≠ 0 ∧
      (isPlain entry.1 = true → entry.1 = wordFor entry.2.toNat) := by decide
  exact hdigits entry h

theorem spellGroup_hundreds (hpos : head ≠ 0) (hlt : size < 100) :
    spellGroup (head * 100 + size) =
      wordFor head :: Lexicon.hundred :: spellPair size := by
  have hhead : (head * 100 + size) / 100 = head := by omega
  have hsize : (head * 100 + size) % 100 = size := by omega
  rw [spellGroup, if_neg (by omega), hhead, hsize]
  rfl

theorem NamesGroup.eq_spellGroup (h : NamesGroup words size)
    (hplain : ∀ word ∈ words, isPlain word = true) : size ≠ 0 ∧ words = spellGroup size := by
  cases h with
  | pair hpair =>
      rw [spellGroup, if_pos hpair.within.1]
      exact hpair.eq_spellPair hplain
  | @hundreds entry hentry =>
      obtain ⟨hpos, hword⟩ := digit_eq_wordFor hentry
      have hspell : spellGroup (entry.2.toNat * 100 + 0) =
          wordFor entry.2.toNat :: Lexicon.hundred :: spellPair 0 :=
        spellGroup_hundreds hpos (by decide)
      refine ⟨by omega, ?_⟩
      rw [← Nat.add_zero (entry.2.toNat * 100), hspell, ← hword (hplain _ (by simp))]
      rfl
  | both hentry hpair =>
      obtain ⟨hpos, hword⟩ := digit_eq_wordFor hentry
      rw [List.forall_mem_cons, List.forall_mem_cons] at hplain
      obtain ⟨hfirst, -, hrest⟩ := hplain
      obtain ⟨-, hpair'⟩ := hpair.eq_spellPair hrest
      refine ⟨by omega, ?_⟩
      rw [spellGroup_hundreds hpos hpair.within.1, ← hword hfirst, ← hpair']

/-- Plain words for a number are its spelling, and the number is not zero. -/
theorem Names.eq_spell (h : Names rule words size)
    (hplain : ∀ word ∈ words, isPlain word = true) : size ≠ 0 ∧ words = spell size := by
  suffices hgroups : size ≠ 0 ∧ words = spellGroups size by
    rwa [spell_eq hgroups.1]
  induction h with
  | group hgroup =>
      rw [spellGroups_of_lt hgroup.within.1]
      exact hgroup.eq_spellGroup hplain
  | @round scale words size hgroup =>
      obtain ⟨hwords, -⟩ := List.forall_mem_append.mp hplain
      obtain ⟨hpos, hspell⟩ := hgroup.eq_spellGroup hwords
      refine ⟨Nat.mul_ne_zero hpos (Nat.ne_of_gt scale.factor_pos), ?_⟩
      rw [← Nat.add_zero (size * scale.factor.toNat),
        spellGroups_scaled scale hpos hgroup.within.1 scale.factor_pos, ← hspell]
      rfl
  | scaled scale hgroup htail hnames ih =>
      obtain ⟨hfront, hrest⟩ := List.forall_mem_append.mp hplain
      obtain ⟨-, hback⟩ := List.forall_mem_cons.mp hrest
      obtain ⟨hpos, hspell⟩ := hgroup.eq_spellGroup hfront
      obtain ⟨hsize, hwords⟩ := ih hback
      have hlt := Nat.lt_of_lt_of_le hnames.within.1 (pow_groups_le htail).1
      refine ⟨by omega, ?_⟩
      rw [spellGroups_scaled scale hpos hgroup.within.1 hlt, ← hspell, ← hwords]

/-- The word of a number from one to nine is that of a digit. -/
theorem exists_digit (hpos : size ≠ 0) (hlt : size < 10) :
    ∃ entry ∈ digits, wordFor size = entry.1 ∧ size = entry.2.toNat := by
  have hdigits : ∀ size < 10, size ≠ 0 → ∃ entry ∈ digits,
      wordFor size = entry.1 ∧ size = entry.2.toNat := by decide
  exact hdigits size hlt hpos

theorem namesPair_spellPair (hpos : size ≠ 0) (hlt : size < 100) :
    NamesPair (spellPair size) size := by
  have hsmall : ∀ size < 20, ∃ entry ∈ Lexicon.smallNumbers,
      wordFor size = entry.1 ∧ size = entry.2.toNat := by decide
  have htens : ∀ size < 10, 2 ≤ size → ∃ entry ∈ Lexicon.tens,
      wordFor (size * 10) = entry.1 ∧ size * 10 = entry.2.toNat := by decide
  rw [spellPair, if_neg hpos]
  split
  next hlow =>
    obtain ⟨entry, hentry, hword, hsize⟩ := hsmall size hlow
    rw [hword, hsize]
    exact .small hentry
  next hhigh =>
    obtain ⟨tens, htens, hword, hsize⟩ := htens (size / 10) (by omega) (by omega)
    split
    next hround =>
      have hequal : size / 10 * 10 = size := by omega
      rw [hequal] at hword hsize
      rw [hword, hsize]
      exact .tens htens
    next hrest =>
      obtain ⟨ones, hones, hlast, hdigit⟩ := exists_digit hrest (Nat.mod_lt size (by decide))
      have hequal : size = tens.2.toNat + ones.2.toNat := by omega
      have hnames := NamesPair.both htens hones
      rwa [← hequal, ← hword, ← hlast] at hnames

theorem namesGroup_spellGroup (hpos : size ≠ 0) (hlt : size < 1000) :
    NamesGroup (spellGroup size) size := by
  rw [spellGroup]
  split
  next hpair => exact .pair (namesPair_spellPair hpos hpair)
  next hlarge =>
    have hhead : size / 100 ≠ 0 := by omega
    obtain ⟨entry, hentry, hword, hdigit⟩ := exists_digit hhead (by omega)
    rw [hword]
    by_cases hround : size % 100 = 0
    · have hequal : entry.2.toNat * 100 = size := by omega
      have hnames := NamesGroup.hundreds hentry
      rw [hequal] at hnames
      rw [hround]
      exact hnames
    · have hequal : entry.2.toNat * 100 + size % 100 = size := by omega
      have hnames := NamesGroup.both hentry
        (namesPair_spellPair hround (Nat.mod_lt _ (by decide)))
      rwa [hequal] at hnames

/-- The spelling of a number with a scale word names it, if that is so for
everything that can follow the word. -/
theorem names_spell_of_scale (scale : Scale) (hle : scale.factor.toNat ≤ size)
    (hlt : size < 1000 * scale.factor.toNat)
    (htails : ∀ tail, tail ≠ 0 → tail < scale.factor.toNat →
      ∃ rule ∈ scale.tails, Names rule (spellGroups tail) tail) :
    Names scale.rule (spellGroups size) size := by
  have hequal : size / scale.factor.toNat * scale.factor.toNat + size % scale.factor.toNat = size :=
    Nat.div_add_mod' _ _
  have hpos : size / scale.factor.toNat ≠ 0 :=
    Nat.ne_of_gt (Nat.div_pos hle scale.factor_pos)
  have hhead : size / scale.factor.toNat < 1000 := Nat.div_lt_of_lt_mul (by rwa [Nat.mul_comm])
  have htail := Nat.mod_lt size scale.factor_pos
  have hspell := spellGroups_scaled scale hpos hhead htail
  have hgroup := namesGroup_spellGroup hpos hhead
  rw [hequal] at hspell
  rw [hspell]
  by_cases hround : size % scale.factor.toNat = 0
  · rw [hround, Nat.add_zero] at hequal
    have hnames := Names.round scale hgroup
    rw [hequal] at hnames
    rw [hround]
    exact hnames
  · obtain ⟨rule, hrule, hnames⟩ := htails _ hround htail
    have hscaled := Names.scaled scale hgroup hrule hnames
    rwa [hequal] at hscaled

/-- A number is named with the scale word, or as what can follow the word. -/
theorem exists_names_of_tails (scale : Scale)
    (htails : ∀ tail, tail ≠ 0 → tail < scale.factor.toNat →
      ∃ rule ∈ scale.tails, Names rule (spellGroups tail) tail) :
    ∀ size, size ≠ 0 → size < 1000 * scale.factor.toNat →
      ∃ rule ∈ scale.tails ++ [scale.rule], Names rule (spellGroups size) size := by
  intro size hpos hlt
  by_cases hle : scale.factor.toNat ≤ size
  · exact ⟨scale.rule, by simp, names_spell_of_scale scale hle hlt htails⟩
  · obtain ⟨rule, hrule, hnames⟩ := htails size hpos (Nat.not_le.mp hle)
    exact ⟨rule, List.mem_append_left _ hrule, hnames⟩

/-- Below a million millions the three scale words are enough. -/
theorem exists_names_spellGroups (hpos : size ≠ 0) (hlt : size < 1000000000000) :
    ∃ rule ∈ rules, Names rule (spellGroups size) size := by
  have hgroup : ∀ tail, tail ≠ 0 → tail < Scale.thousand.factor.toNat →
      ∃ rule ∈ Scale.thousand.tails, Names rule (spellGroups tail) tail := by
    intro tail hpos hlt
    rw [spellGroups_of_lt hlt]
    exact ⟨.group, List.mem_singleton_self _, .group (namesGroup_spellGroup hpos hlt)⟩
  have hthousands := exists_names_of_tails .thousand hgroup
  have hmillions := exists_names_of_tails .million hthousands
  exact exists_names_of_tails .billion hmillions size hpos hlt

theorem namesGroup_spell (hlt : size < 1000) : NamesGroup (spell size) size := by
  by_cases hpos : size = 0
  · subst hpos
    have hzero : (("zero", 0) : String × UInt64) ∈ Lexicon.smallNumbers := by decide
    exact .pair (.small hzero)
  · rw [spell_eq hpos, spellGroups_of_lt hlt]
    exact namesGroup_spellGroup hpos hlt

/-- Every number is named by its spelling. -/
theorem names_spell (hlt : size < 1000000000000) :
    ∃ rule ∈ rules, Names rule (spell size) size := by
  by_cases hpos : size = 0
  · exact ⟨.group, by decide, .group (namesGroup_spell (by omega))⟩
  · rw [spell_eq hpos]
    exact exists_names_spellGroups hpos hlt

end Numeral

end SpokenKeys
