import SpokenKeys.Proofs.Chaining
import SpokenKeys.Proofs.Hearing
import SpokenKeys.Proofs.SpokenNumbers

/-!
What a spoken number is worth, and how it can be said. The value of an accepted
number is what its words are worth from left to right, and every number below a
million millions is said by its spelling and in no other plain words.
-/

namespace SpokenKeys

open Commands Numeral

namespace Numeral

/-- The nonterminals of numbers, with what their numbers are less than. -/
def limits : List (Rule × Nat) :=
  [(.group, 10 ^ 3), (.thousands, 10 ^ 6), (.millions, 10 ^ 9), (.billions, 10 ^ 12)]

theorem limit_eq {entry : Rule × Nat} (h : entry ∈ limits) :
    entry.1 ∈ rules ∧ entry.2 = 1000 ^ groups entry.1 := by
  have hlimits : ∀ entry ∈ limits, entry.1 ∈ rules ∧ entry.2 = 1000 ^ groups entry.1 := by decide
  exact hlimits entry h

theorem turnsSession_of_mem {rule : Rule} (h : rule ∈ rules) : rule.turnsSession = false := by
  have hrules : ∀ rule ∈ rules, rule.turnsSession = false := by decide
  exact hrules rule h

/-- Digits tell their number. -/
theorem eq_of_toString {size other : Nat} (h : toString size = toString other) : size = other := by
  rw [Nat.toString_eq_ofList_toDigits, Nat.toString_eq_ofList_toDigits] at h
  rw [← Nat.ofDigitChars_ten_toDigits (n := size), String.ofList_injective h,
    Nat.ofDigitChars_ten_toDigits]

end Numeral

namespace Parser

variable {parser : Parser} {journal : Log.Journal} {rule : Rule} {tokens : List Token}
  {value : Value} {size : Nat}

/-- What is accepted as a number are words that name it. -/
theorem exists_names_of_fragment (hrule : rule ∈ rules)
    (h : parser.fragment journal rule tokens = .ok value) :
    ∃ size, Names rule (tokens.map Token.kind) size ∧ value = .integer (.ofNat size) := by
  obtain ⟨-, -, hphrase⟩ := (fragment_eq_ok_iff (turnsSession_of_mem hrule)).mp h
  exact (says_numeral hrule).mp hphrase

/-- Words that name a number are accepted with the keyword before them. -/
theorem fragment_number {keyword : Token} (hkeyword : keyword.kind = Lexicon.number)
    (hrule : rule ∈ rules) (h : Names rule (tokens.map Token.kind) size) :
    parser.fragment journal .number (keyword :: tokens) = .ok (.node (.text (toString size))) := by
  have hlength : _ < Limits.tokens := Nat.lt_trans (h.length_lt hrule) (by decide)
  rw [List.length_map] at hlength
  exact (fragment_eq_ok_iff rfl).mpr ⟨List.cons_ne_nil _ _, hlength,
    says_number.mpr ⟨keyword, tokens, rule, hrule, size, rfl, hkeyword, h, rfl⟩⟩

/-- An awake parser types a number that is said alone. -/
theorem heard_number {keyword closing : Token} (hsession : parser.session = .awake)
    (hkeyword : keyword.kind = Lexicon.number) (hclosing : closing.kind = Token.endLabel)
    (hrule : rule ∈ rules) (h : Names rule (tokens.map Token.kind) size) :
    ∃ outcome, (parser.heard (keyword :: (tokens ++ [closing]))).1 = .ok outcome ∧
      outcome.action = .chain [.text (toString size)] := by
  have hlength : _ < Limits.words := Nat.lt_trans (h.length_lt hrule) (by decide)
  have hwords : Limits.tokens = Limits.words + 1 := rfl
  rw [List.length_map] at hlength
  have hphrase : Says .number (keyword :: tokens) (.node (.text (toString size))) :=
    says_number.mpr ⟨keyword, tokens, rule, hrule, size, rfl, hkeyword, h, rfl⟩
  have hbody : Says .commands (keyword :: tokens) (.node (.chain [.text (toString size)])) :=
    Says.chain_single (by decide) hphrase
  have hwithin : (keyword :: tokens ++ [closing]).length ≤ Limits.tokens := by
    rw [List.length_append, List.length_cons, List.length_singleton]
    omega
  exact heard_commands hsession hbody hclosing hwithin

/-- Plain words for one and the same number are the same words. -/
theorem kinds_unique_of_text {others : List Token} {content : String}
    (hplain : ∀ token ∈ tokens, isPlain token.kind = true)
    (hplain' : ∀ token ∈ others, isPlain token.kind = true)
    (h : parser.fragment journal .number tokens = .ok (.node (.text content)))
    (h' : parser.fragment journal .number others = .ok (.node (.text content))) :
    tokens.map Token.kind = others.map Token.kind := by
  -- Both are the keyword and the spelling of the number that the text has.
  have hspelled : ∀ {tokens : List Token},
      (∀ token ∈ tokens, isPlain token.kind = true) →
      parser.fragment journal .number tokens = .ok (.node (.text content)) →
      ∃ size, content = toString size ∧
        tokens.map Token.kind = Lexicon.number :: spell size := by
    intro tokens hplain h
    obtain ⟨-, -, hphrase⟩ := (fragment_eq_ok_iff rfl).mp h
    obtain ⟨keyword, rest, rule, -, size, rfl, hkeyword, hnames, hvalue⟩ := says_number.mp hphrase
    cases hvalue
    obtain ⟨-, hplain⟩ := List.forall_mem_cons.mp hplain
    obtain ⟨-, hwords⟩ := hnames.eq_spell (List.forall_mem_map.mpr hplain)
    exact ⟨size, rfl, by rw [List.map_cons, hkeyword, hwords]⟩
  obtain ⟨size, hsize, hkinds⟩ := hspelled hplain h
  obtain ⟨size', hsize', hkinds'⟩ := hspelled hplain' h'
  have hequal : size = size' := eq_of_toString (hsize.symm.trans hsize')
  rw [hkinds, hkinds', hequal]

end Parser

/-- A spoken number has its place value. What is accepted as a number is an
integer: what its words are worth when they are read from left to right, and less
than the limit of the nonterminal. With the keyword before them the words are
accepted as the digits of that integer. -/
theorem numbers_have_place_value (parser : Parser) (journal : Log.Journal) :
    ∀ entry ∈ limits, ∀ (tokens : List Token) (value : Value),
      parser.fragment journal entry.1 tokens = .ok value →
      ∃ number : UInt64, value = .integer number ∧
        number.toNat = Numeral.value (tokens.map Token.kind) ∧ number.toNat < entry.2 ∧
        ∀ keyword : Token, keyword.kind = Lexicon.number →
          parser.fragment journal .number (keyword :: tokens) =
            .ok (.node (.text (toString number.toNat))) := by
  intro entry hentry tokens value haccepted
  obtain ⟨hrule, hlimit⟩ := limit_eq hentry
  obtain ⟨size, hnames, rfl⟩ := Parser.exists_names_of_fragment hrule haccepted
  refine ⟨.ofNat size, rfl, ?_⟩
  rw [toNat_ofNat_of_names hnames]
  exact ⟨hnames.value_eq.symm, hlimit ▸ hnames.within.1,
    fun keyword hkeyword => Parser.fragment_number hkeyword hrule hnames⟩

/-- Homophones count as the digits they sound like. -/
theorem two_billions_with_homophones_valued :
    let words := ["to", Lexicon.billion, "for", Lexicon.hundred, Lexicon.thousand]
    let tokens := words.map fun word => Token.ofWord word 0
    let parser : Parser := { entry := .strict }
    parser.fragment {} .billions tokens = .ok (.integer 2000400000) ∧
      Numeral.value words = 2000400000 ∧ 2000400000 < 10 ^ 12 ∧
      parser.fragment {} .number (Token.ofWord Lexicon.number 0 :: tokens) =
        .ok (.node (.text "2000400000")) := by
  intro words tokens parser
  have hsmall : (("to", 2) : String × UInt64) ∈ Lexicon.smallNumbers := by decide
  have hdigit : (("for", 4) : String × UInt64) ∈ digits := by decide
  have hthousands : Names .thousands ["for", Lexicon.hundred, Lexicon.thousand] 400000 :=
    .round .thousand (.hundreds hdigit)
  have hnames : Names .billions (tokens.map Token.kind) 2000400000 :=
    .scaled .billion (.pair (.small hsmall)) (by decide) hthousands
  have haccepted : parser.fragment {} .billions tokens = .ok (.integer 2000400000) :=
    (Parser.fragment_eq_ok_iff rfl).mpr
      ⟨List.cons_ne_nil _ _, by decide, (says_numeral (by decide)).mpr ⟨_, hnames, rfl⟩⟩
  obtain ⟨number, hnumber, hvalue, hlimit, hdigits⟩ :=
    numbers_have_place_value parser {} (.billions, 10 ^ 12) (by decide) tokens _ haccepted
  cases hnumber
  exact ⟨haccepted, hvalue.symm, hlimit, hdigits _ rfl⟩

/-- Every number below a million millions can be spoken in exactly one plain way.
Its spelling, after the keyword, is typed as its digits by any awake parser. And
words with neither zero nor a homophone among them, which are accepted as one and
the same text of digits, are the same words. -/
theorem numbers_spoken_in_one_plain_way :
    (∀ (size : Nat) (parser : Parser) (tokens : List Token) (journal : Log.Journal),
      size < 10 ^ 12 → parser.session = .awake →
      tokens.map Token.kind = Lexicon.number :: (Numeral.spell size ++ [Token.endLabel]) →
      ∃ outcome, ((parser.parse tokens).run journal).1.1 = .ok outcome ∧
        outcome.action = .chain [.text (toString size)]) ∧
    (∀ (parser : Parser) (journal : Log.Journal) (tokens others : List Token) (content : String),
      (∀ token ∈ tokens ++ others, token.kind ∉ ["zero", "to", "for"]) →
      parser.fragment journal .number tokens = .ok (.node (.text content)) →
      parser.fragment journal .number others = .ok (.node (.text content)) →
      tokens.map Token.kind = others.map Token.kind) := by
  constructor
  · intro size parser tokens journal hlt hsession hkinds
    obtain ⟨rule, hrule, hnames⟩ := names_spell hlt
    obtain ⟨keyword, rest, rfl, hkeyword, hrest⟩ := List.map_eq_cons_iff.mp hkinds
    obtain ⟨words, last, rfl, hwords, hlast⟩ := List.map_eq_append_iff.mp hrest
    obtain ⟨closing, rfl, hclosing⟩ := List.map_eq_singleton_iff.mp hlast
    rw [Parser.parse_fst]
    exact Parser.heard_number hsession hkeyword hclosing hrule (hwords ▸ hnames)
  · intro parser journal tokens others content hwords h h'
    have hplain : ∀ token ∈ tokens ++ others, isPlain token.kind = true := by
      intro token hmem
      simpa [isPlain] using hwords token hmem
    obtain ⟨htokens, hothers⟩ := List.forall_mem_append.mp hplain
    exact Parser.kinds_unique_of_text htokens hothers h h'

/-- Forty-two is said by its spelling, and only so in plain words. -/
theorem forty_two_spoken_in_one_plain_way :
    let plain := [Lexicon.number, "forty", "two"]
    let tokens := plain.map fun word => Token.ofWord word 0
    let parser : Parser := { entry := .tolerant }
    (∃ outcome, ((parser.parse (tokens ++ [Token.closing 3])).run {}).1.1 = .ok outcome ∧
      outcome.action = .chain [.text "42"]) ∧
    parser.fragment {} .number tokens = .ok (.node (.text "42")) ∧
    ∀ others : List Token, (∀ token ∈ others, token.kind ∉ ["zero", "to", "for"]) →
      parser.fragment {} .number others = .ok (.node (.text "42")) →
      others.map Token.kind = plain := by
  intro plain tokens parser
  have hspell : NamesGroup (spell 42) 42 := namesGroup_spell (by decide)
  have hnames : Names .group (tokens.tail.map Token.kind) 42 := .group hspell
  have haccepted : parser.fragment {} .number tokens = .ok (.node (.text "42")) :=
    Parser.fragment_number rfl List.mem_cons_self hnames
  refine ⟨numbers_spoken_in_one_plain_way.1 42 parser _ {} (by decide) rfl rfl, haccepted, ?_⟩
  intro others hplain hothers
  have hwords : ∀ token ∈ others ++ tokens, token.kind ∉ ["zero", "to", "for"] :=
    List.forall_mem_append.mpr ⟨hplain, by decide⟩
  exact numbers_spoken_in_one_plain_way.2 parser {} others tokens "42" hwords hothers haccepted

end SpokenKeys
