import SpokenKeys.Proofs.Filler
import SpokenKeys.Proofs.Tokenizing

/-!
What turning tolerance of filler words on does to the pipeline. The filler words
join the vocabulary, so they are no free text any more, and no body has a place
for them. An utterance that is accepted without tolerance is therefore accepted
alike with it, unless there is a filler word in it; then the first one is
unexpected.
-/

namespace SpokenKeys

open Commands

/-- Whether the tolerant entry point labels the word as a filler word. -/
def LexicalPreferences.hearsFiller (preferences : LexicalPreferences) (word : String) : Bool :=
  Lexicon.isJunk word || preferences.lowercases && Lexicon.isJunk (Text.lowercase word)

/-- The pipeline as it is, but for the entry point. -/
def Pipeline.atEntry (pipeline : Pipeline) (entry : Entry) : Pipeline where
  tokenizer := { pipeline.tokenizer with entry }
  parser := { pipeline.parser with entry }

namespace Commands

/-- Tolerance adds the filler words to the vocabulary. -/
theorem reachable_tolerant_iff {word : String} : word ∈ grammar.reachableWords .tolerant ↔
    Lexicon.isJunk word = true ∨ word ∈ grammar.reachableWords .strict := by
  have hwords : grammar.reachableWords .tolerant =
      Lexicon.junkWords ++ grammar.reachableWords .strict := by decide +kernel
  rw [hwords, List.mem_append, Lexicon.isJunk, List.contains_iff_mem]

/-- Otherwise no filler word is in the vocabulary, in whatever case. -/
theorem not_filler_of_reachable : ∀ word ∈ grammar.reachableWords .strict,
    Text.lowercase word = word ∧ Lexicon.isJunk word = false := by
  decide +kernel

/-- Whether filler words may be in what the symbol derives. -/
def leadsToFiller : Symbol → Bool
  | .terminal word => Lexicon.isJunk word
  | .rule rule => rule == .junk || rule == .tolerantInput

/-- The strict entry point generates no filler words. -/
theorem not_isJunk_of_generates {labels : List String} (h : grammar.Generates .input labels) :
    ∀ label ∈ labels, Lexicon.isJunk label = false := by
  have hsides : (productions.all fun production => leadsToFiller (.rule production.lhs) ||
      production.rhs.all fun symbol => !leadsToFiller symbol) = true := by
    decide
  have hclosed : ∀ production ∈ grammar.table, (!leadsToFiller (.rule production.lhs)) = true →
      (production.rhs.all fun symbol => !leadsToFiller symbol) = true := by
    intro production hmem hlhs
    have hside := forall_table hsides production hmem
    rw [Bool.not_eq_true'] at hlhs
    rwa [hlhs, Bool.false_or] at hside
  have hstart : ([n .input].all fun symbol => !leadsToFiller symbol) = true := rfl
  intro label hlabel
  have hkept := Derives.forall_of_closed hclosed h hstart label hlabel
  rwa [Bool.not_eq_true'] at hkept

end Commands

namespace Tokenizer

variable {tokenizer : Tokenizer} {word : String} {words : List String} {place : Nat}

theorem classify_strict_of_filler (h : tokenizer.preferences.hearsFiller word = true) :
    { tokenizer with entry := .strict }.classify word place = .free word place := by
  rw [LexicalPreferences.hearsFiller, Bool.or_eq_true, Bool.and_eq_true] at h
  have hword : word ∉ grammar.reachableWords .strict := by
    intro hmem
    obtain ⟨hlower, hnot⟩ := not_filler_of_reachable word hmem
    simp [hlower, hnot] at h
  have hlowered : ¬ (tokenizer.preferences.lowercases = true ∧
      Text.lowercase word ∈ grammar.reachableWords .strict) := by
    rintro ⟨-, hmem⟩
    have hjunk : ∀ word ∈ Lexicon.junkWords, Text.lowercase word = word := by decide
    obtain ⟨-, hnot⟩ := not_filler_of_reachable _ hmem
    rcases h with h | ⟨-, h⟩
    · rw [hjunk word (List.contains_iff_mem.mp h), h] at hnot
      cases hnot
    · rw [h] at hnot
      cases hnot
  rw [classify_eq, if_neg hword, if_neg hlowered]

theorem isJunk_of_filler (h : tokenizer.preferences.hearsFiller word = true) :
    Lexicon.isJunk ({ tokenizer with entry := .tolerant }.classify word place).kind = true := by
  rw [LexicalPreferences.hearsFiller, Bool.or_eq_true, Bool.and_eq_true] at h
  rw [classify_eq]
  split
  next hmem =>
    rcases reachable_tolerant_iff.mp hmem with hjunk | hreachable
    · exact hjunk
    · -- In lower case such a word is itself, and it is no filler word.
      obtain ⟨hlower, hnot⟩ := not_filler_of_reachable word hreachable
      rw [hlower, hnot] at h
      simp at h
  next hmem =>
    obtain hjunk | hlowered := h
    · exact absurd (reachable_tolerant_iff.mpr (.inl hjunk)) hmem
    · rw [if_pos ⟨hlowered.1, reachable_tolerant_iff.mpr (.inl hlowered.2)⟩]
      exact hlowered.2

theorem classify_of_not_filler (h : tokenizer.preferences.hearsFiller word = false) :
    { tokenizer with entry := .tolerant }.classify word place =
      { tokenizer with entry := .strict }.classify word place := by
  rw [LexicalPreferences.hearsFiller, Bool.or_eq_false_iff] at h
  obtain ⟨hword, hlowered⟩ := h
  rw [classify_eq, classify_eq]
  simp only [reachable_tolerant_iff, hword, Bool.false_eq_true, false_or]
  cases hlowercases : tokenizer.preferences.lowercases with
  | false => simp
  | true =>
      rw [hlowercases, Bool.true_and] at hlowered
      simp [hlowered]

theorem labelled_alike (h : ∀ word ∈ words, tokenizer.preferences.hearsFiller word = false) :
    { tokenizer with entry := .tolerant }.labelled words =
      { tokenizer with entry := .strict }.labelled words := by
  apply List.ext_getElem?
  intro place
  rw [labelled_getElem?, labelled_getElem?]
  cases hword : words[place]? with
  | none => rw [Option.map_none, Option.map_none]
  | some word => exact congrArg some (classify_of_not_filler (h word (List.mem_of_getElem? hword)))

/-- The first filler word of a text is free text without tolerance. -/
theorem labelled_filler {front rest : List String}
    (hfront : ∀ other ∈ front, tokenizer.preferences.hearsFiller other = false)
    (hword : tokenizer.preferences.hearsFiller word = true) :
    ∃ common token more others,
      { tokenizer with entry := .tolerant }.labelled (front ++ word :: rest) =
        common ++ token :: more ∧
      { tokenizer with entry := .strict }.labelled (front ++ word :: rest) =
        common ++ .free word front.length :: others ∧
      token.wordNo = front.length ∧ Lexicon.isJunk token.kind = true := by
  have hsplit (entry : Entry) : ∃ others : List Token,
      { tokenizer with entry }.labelled (front ++ word :: rest) =
        { tokenizer with entry }.labelled front ++
          { tokenizer with entry }.classify word front.length :: others := by
    rw [labelled, List.mapIdx_append, List.mapIdx_cons, Nat.zero_add]
    exact ⟨_, rfl⟩
  obtain ⟨more, htolerant⟩ := hsplit .tolerant
  obtain ⟨others, hstrict⟩ := hsplit .strict
  rw [labelled_alike hfront] at htolerant
  rw [classify_strict_of_filler hword] at hstrict
  exact ⟨_, _, more, others, htolerant, hstrict, classify_wordNo, isJunk_of_filler hword⟩

end Tokenizer

namespace Parser

variable {strict tolerant : Parser} {front rest others : List Token} {token other : Token}

/-- Where an utterance that is accepted had another word, a filler word is unexpected. -/
theorem heard_filler (hstrict : strict.entry = .strict)
    (hclosed : ((front ++ token :: rest).map Token.kind).getLast? = some Token.endLabel)
    (hlength : (front ++ token :: rest).length ≤ Limits.tokens)
    (hbegins : grammar.Begins .input (front.map Token.kind))
    (hfiller : Lexicon.isJunk token.kind = true) :
    (strict.heard (front ++ token :: rest)).1 = .error (.unexpectedToken token) := by
  have hentry : strict.entry.rule = .input := by
    rw [hstrict]
    rfl
  have hunviable : ¬ grammar.Begins .input
      (((front ++ token :: rest).map Token.kind).take (front.length + 1)) := by
    rintro ⟨more, hgenerates⟩
    have hmem : token.kind ∈
        ((front ++ token :: rest).map Token.kind).take (front.length + 1) ++ more := by
      simp [List.take_append]
    rw [not_isJunk_of_generates hgenerates _ hmem] at hfiller
    cases hfiller
  have hviable : grammar.Begins .input
      (((front ++ token :: rest).map Token.kind).take front.length) := by
    rwa [← List.map_take, List.take_left]
  have hrejected := strict.heard_closed hclosed hlength
  rw [hentry] at hrejected
  rcases hrejected with ⟨hgenerates, -⟩ | ⟨-, last, other, hother, hbefore, hafter, hreply⟩
  · have hmem : token.kind ∈ (front ++ token :: rest).map Token.kind := by simp
    rw [not_isJunk_of_generates hgenerates _ hmem] at hfiller
    cases hfiller
  · have hlast : last = front.length := by
      rcases Nat.lt_trichotomy last front.length with hlt | hequal | hgt
      · exact absurd (hviable.take hlt) hafter
      · exact hequal
      · exact absurd (hbefore _ hgt) hunviable
    rw [hlast, List.getElem?_append_right (Nat.le_refl _), Nat.sub_self] at hother
    cases hother
    exact hreply

/-- So it is at the tolerant entry point, if the word was free text. -/
theorem heard_filler_inside (hstrict : strict.entry = .strict)
    (htolerant : tolerant.entry = .tolerant) (hsession : tolerant.session = strict.session)
    (hgenerates : grammar.Generates .input ((front ++ other :: others).map Token.kind))
    (hother : other.kind = Token.anyLabel)
    (hclosed : ((front ++ token :: rest).map Token.kind).getLast? = some Token.endLabel)
    (hlength : (front ++ token :: rest).length ≤ Limits.tokens)
    (hfiller : Lexicon.isJunk token.kind = true) :
    (tolerant.heard (front ++ token :: rest)).1 = .error (.unexpectedToken token) := by
  have hbegins : grammar.Begins .input (front.map Token.kind) :=
    ⟨_, by rwa [← List.map_append]⟩
  have hbare := heard_filler hstrict hclosed hlength hbegins hfiller
  cases front with
  | nil =>
      -- Nothing that is accepted begins with free text.
      rw [List.nil_append, List.map_cons, hother] at hgenerates
      exact absurd (fits.mem_firstOf hgenerates) (by decide)
  | cons first front =>
      have hopening : Lexicon.isOpening first.kind = true := by
        cases front <;> exact isOpening_of_generates hgenerates
      have hnone : ∀ token ∈ ([] : List Token), Lexicon.isJunk token.kind = true := by simp
      have hwithin : ([] : List Token).length + (first :: (front ++ token :: rest)).length ≤
          Limits.tokens := by
        rwa [List.length_nil, Nat.zero_add]
      rcases heard_append_filler hstrict htolerant hsession hnone hopening hwithin with
        ⟨outcome, -, haccepted, -⟩ | ⟨_, unexpected, -, -, -, hrejected, hfilled⟩
      · cases hbare.symm.trans haccepted
      · cases hbare.symm.trans hrejected
        exact hfilled

end Parser

namespace Pipeline

variable {pipeline : Pipeline} {text word : String} {front rest : List String}
  {result : PipelineResult}

@[simp] theorem atEntry_entry (pipeline : Pipeline) (entry : Entry) :
    (pipeline.atEntry entry).parser.entry = entry := rfl

/-- Both entry points make the same words of a text, within the same limits. -/
theorem tokenizeText_atEntry {stream : TokenStream} {entry : Entry} (other : Entry)
    (h : ((pipeline.atEntry entry).tokenizer.tokenizeText text).1 = .ok stream) :
    ((pipeline.atEntry other).tokenizer.tokenizeText text).1 =
      .ok ⟨(pipeline.atEntry other).tokenizer.labelled (Text.words text) ++
        [.closing (Text.words text).length]⟩ := by
  obtain ⟨hfew, hshort, -⟩ := Tokenizer.tokenizeText_eq_ok_iff.mp h
  exact Tokenizer.tokenizeText_eq_ok_iff.mpr ⟨hfew, hshort, rfl⟩

theorem processed_without_filler
    (hnone : ∀ word ∈ Text.words text, pipeline.tokenizer.preferences.hearsFiller word = false)
    (h : ((pipeline.atEntry .strict).processed text).1 = .ok result) :
    ∃ other, ((pipeline.atEntry .tolerant).processed text).1 = .ok other ∧
      other.action = result.action ∧
      ((pipeline.atEntry .tolerant).processed text).2.parser.session =
        ((pipeline.atEntry .strict).processed text).2.parser.session := by
  obtain ⟨stream, outcome, htokens, houtcome, haction⟩ := exists_heard_of_processed h
  obtain ⟨-, -, hstream⟩ := Tokenizer.tokenizeText_eq_ok_iff.mp htokens
  have hsame := tokenizeText_atEntry .tolerant htokens
  have hlabelled : (pipeline.atEntry .tolerant).tokenizer.labelled (Text.words text) =
      (pipeline.atEntry .strict).tokenizer.labelled (Text.words text) :=
    Tokenizer.labelled_alike hnone
  rw [hlabelled, ← hstream] at hsame
  obtain ⟨-, hlength⟩ := Parser.generates_of_heard houtcome
  have hfiller : ∀ token ∈ ([] : List Token), Lexicon.isJunk token.kind = true := by simp
  have hwithin : ([] : List Token).length + stream.tokens.length ≤ Limits.tokens := by
    rwa [List.length_nil, Nat.zero_add]
  obtain ⟨other, hother, haction', hsession⟩ :=
    Parser.heard_alike (pipeline.atEntry_entry .strict) (pipeline.atEntry_entry .tolerant) rfl
      hfiller (.inl rfl) hwithin houtcome
  rw [List.nil_append] at hother hsession
  obtain ⟨hresult, hparser⟩ := processed_of_accepted hsame hother
  obtain ⟨-, hparser'⟩ := processed_of_accepted htokens houtcome
  refine ⟨_, hresult, haction'.trans haction.symm, ?_⟩
  rw [hparser, hparser', hsession]

theorem processed_with_filler (hwords : Text.words text = front ++ word :: rest)
    (hfront : ∀ other ∈ front, pipeline.tokenizer.preferences.hearsFiller other = false)
    (hword : pipeline.tokenizer.preferences.hearsFiller word = true)
    (h : ((pipeline.atEntry .strict).processed text).1 = .ok result) :
    ∃ token : Token, token.wordNo = front.length ∧ token.kind ∈ Lexicon.junkWords ∧
      ((pipeline.atEntry .tolerant).processed text).1 =
        .error (.syntactic (.unexpectedToken token)) := by
  obtain ⟨stream, outcome, htokens, houtcome, -⟩ := exists_heard_of_processed h
  obtain ⟨-, -, hstream⟩ := Tokenizer.tokenizeText_eq_ok_iff.mp htokens
  have hfilled := tokenizeText_atEntry .tolerant htokens
  obtain ⟨hgenerates, -⟩ := Parser.generates_of_heard houtcome
  obtain ⟨common, token, more, others, hfilled', hbare, hwordNo, hfiller⟩ :
      ∃ common token more others,
        (pipeline.atEntry .tolerant).tokenizer.labelled (front ++ word :: rest) =
          common ++ token :: more ∧
        (pipeline.atEntry .strict).tokenizer.labelled (front ++ word :: rest) =
          common ++ .free word front.length :: others ∧
        token.wordNo = front.length ∧ Lexicon.isJunk token.kind = true :=
    Tokenizer.labelled_filler hfront hword
  rw [hwords, hfilled', List.append_assoc, List.cons_append] at hfilled
  rw [hstream, hwords, hbare, List.append_assoc, List.cons_append] at hgenerates
  obtain ⟨hclosed, hwithin⟩ := Tokenizer.closed_of_tokenizeText hfilled
  have hunexpected := Parser.heard_filler_inside (pipeline.atEntry_entry .strict)
    (pipeline.atEntry_entry .tolerant) rfl hgenerates rfl hclosed hwithin hfiller
  exact ⟨token, hwordNo, List.contains_iff_mem.mp hfiller,
    processed_of_rejected hfilled hunexpected⟩

end Pipeline

/-- Turning tolerance of filler words on costs the filler words that are not in
front. What the pipeline accepts at the strict entry point, it accepts at the
tolerant one with the same action and the same session after it, if no word of
the text is a filler word. Otherwise the text is rejected there: the first filler
word is unexpected, even where any other word would have been free text. -/
theorem tolerance_rejects_filler_words (pipeline : Pipeline) (text : String) (micros : Nat)
    (journal later : Log.Journal) (result : PipelineResult)
    (h : (((pipeline.atEntry .strict).process text micros).run journal).1.1 = .ok result) :
    let hearsFiller := pipeline.tokenizer.preferences.hearsFiller
    let bare := (((pipeline.atEntry .strict).process text micros).run journal).1
    let filled := (((pipeline.atEntry .tolerant).process text micros).run later).1
    ((∀ word ∈ Text.words text, hearsFiller word = false) ∧
      ∃ other, filled.1 = .ok other ∧ other.action = result.action ∧
        filled.2.parser.session = bare.2.parser.session) ∨
    ∃ front word rest token, Text.words text = front ++ word :: rest ∧
      (∀ other ∈ front, hearsFiller other = false) ∧ hearsFiller word = true ∧
      token.wordNo = front.length ∧ token.kind ∈ Lexicon.junkWords ∧
      filled.1 = .error (.syntactic (.unexpectedToken token)) := by
  simp only [Pipeline.process_fst] at h ⊢
  cases hfind : (Text.words text).find? pipeline.tokenizer.preferences.hearsFiller with
  | none =>
      have hnone := List.find?_eq_none.mp hfind
      simp only [Bool.not_eq_true] at hnone
      exact .inl ⟨hnone, Pipeline.processed_without_filler hnone h⟩
  | some word =>
      obtain ⟨hword, front, rest, hwords, hfront⟩ := List.find?_eq_some_iff_append.mp hfind
      simp only [Bool.not_eq_true'] at hfront
      obtain ⟨token, hunexpected⟩ := Pipeline.processed_with_filler hwords hfront hword h
      exact .inr ⟨front, word, rest, token, hwords, hfront, hword, hunexpected⟩

/-- A pipeline as it starts. -/
def Pipeline.fresh : Pipeline := .ofParts { entry := .strict } {}

theorem words_phrase_the_cat :
    Text.words "phrase the cat" = ["phrase"] ++ "the" :: ["cat"] := by
  decide +kernel

/-- Without tolerance a filler word inside a phrase is a word of the phrase. -/
theorem phrase_the_cat_processed : ∃ result,
    ((Pipeline.fresh.atEntry .strict).processed "phrase the cat").1 = .ok result ∧
      result.action = .chain [.words [.word "the", .word "cat"]] := by
  have hlabelled : (Pipeline.fresh.atEntry .strict).tokenizer.labelled ["phrase", "the", "cat"] =
      [.ofWord "phrase" 0, .free "the" 1, .free "cat" 2] := by
    simp only [Tokenizer.labelled, List.mapIdx_cons, List.mapIdx_nil, Tokenizer.classify_eq]
    decide +kernel
  have htokens : ((Pipeline.fresh.atEntry .strict).tokenizer.tokenizeText "phrase the cat").1 =
      .ok ⟨[.ofWord "phrase" 0, .free "the" 1, .free "cat" 2] ++ [.closing 3]⟩ := by
    rw [Tokenizer.tokenizeText_eq_ok_iff, words_phrase_the_cat]
    exact ⟨by decide, by decide, by rw [← hlabelled]; rfl⟩
  have hphrase : Says .phrase [.ofWord "phrase" 0, .free "the" 1, .free "cat" 2]
      (.node (.words [.word "the", .word "cat"])) :=
    says_phrase.mpr ⟨_, _, rfl, rfl, says_wordRun.mpr ⟨List.cons_ne_nil _ _, by decide, rfl⟩⟩
  have hawake : (Pipeline.fresh.atEntry .strict).parser.session = .awake := rfl
  have hclosing : (Token.closing 3).kind = Token.endLabel := rfl
  have hlength : ([Token.ofWord "phrase" 0, Token.free "the" 1, Token.free "cat" 2] ++
      [Token.closing 3]).length ≤ Limits.tokens := by
    decide
  obtain ⟨outcome, houtcome, haction⟩ :=
    Parser.heard_commands hawake (.chain_single (by decide) hphrase) hclosing hlength
  exact ⟨_, (Pipeline.processed_of_accepted htokens houtcome).1, haction⟩

/-- With tolerance the filler word inside the phrase is unexpected. -/
theorem phrase_the_cat_rejects_filler_word : ∃ result token,
    (((Pipeline.fresh.atEntry .strict).process "phrase the cat" 0).run {}).1.1 = .ok result ∧
      result.action = .chain [.words [.word "the", .word "cat"]] ∧
      (((Pipeline.fresh.atEntry .tolerant).process "phrase the cat" 0).run {}).1.1 =
        .error (.syntactic (.unexpectedToken token)) ∧
      token.wordNo = 1 ∧ token.kind ∈ Lexicon.junkWords := by
  obtain ⟨result, hresult, haction⟩ := phrase_the_cat_processed
  rw [← Pipeline.process_fst _ _ 0 {}] at hresult
  rcases tolerance_rejects_filler_words .fresh "phrase the cat" 0 {} {} result hresult with
    ⟨hnone, -⟩ | ⟨front, word, rest, token, hwords, hfront, hword, hwordNo, hkind, hrejected⟩
  · exact absurd (hnone "the" (by rw [words_phrase_the_cat]; simp)) (by decide)
  · rw [words_phrase_the_cat, List.singleton_append] at hwords
    refine ⟨result, token, hresult, haction, hrejected, hwordNo.trans ?_, hkind⟩
    match front, hwords, hfront with
    | [], hwords, _ =>
        cases hwords
        exact absurd hword (by decide)
    | [_], _, _ => rfl
    | _ :: second :: _, hwords, hfront =>
        have hsecond : second = "the" := by
          rw [List.cons_append, List.cons_append] at hwords
          exact (List.cons.inj (List.cons.inj hwords).2).1.symm
        exact absurd (hfront second (by simp)) (by rw [hsecond]; decide)

/-- Tolerance can break a command that is accepted without it. -/
theorem tolerance_breaks_a_phrase : ¬ ∀ (pipeline : Pipeline) (text : String) (micros : Nat)
    (journal later : Log.Journal) (result : PipelineResult),
    (((pipeline.atEntry .strict).process text micros).run journal).1.1 = .ok result →
    ∃ other, (((pipeline.atEntry .tolerant).process text micros).run later).1.1 = .ok other ∧
      other.action = result.action ∧
      (((pipeline.atEntry .tolerant).process text micros).run later).1.2.parser.session =
        (((pipeline.atEntry .strict).process text micros).run journal).1.2.parser.session := by
  intro hclaim
  obtain ⟨result, hresult, -⟩ := phrase_the_cat_processed
  have hfront : ∀ other ∈ ["phrase"],
      Pipeline.fresh.tokenizer.preferences.hearsFiller other = false := by
    decide
  obtain ⟨token, -, -, hrejected⟩ :=
    Pipeline.processed_with_filler words_phrase_the_cat hfront rfl hresult
  rw [← Pipeline.process_fst _ _ 0 {}] at hresult hrejected
  obtain ⟨other, hother, -⟩ := hclaim .fresh "phrase the cat" 0 {} {} result hresult
  cases hrejected.symm.trans hother

end SpokenKeys
