import SpokenKeys.Pipeline
import SpokenKeys.Proofs.Interpretation

/-!
From a text to what a pipeline makes of it. The tokens of a text are its words,
each labelled by itself, with the closing marker after them. What a tokenizer or
a pipeline returns and becomes has nothing to do with the journal.
-/

namespace SpokenKeys

namespace Grammar

/-- The words that some production of a reachable nonterminal matches. -/
def reachableWords (grammar : Grammar) (entry : Entry) : List String :=
  (grammar.table.filter fun production => production.lhs ∈ grammar.reachable entry.rule).flatMap
    fun production => wordsOf production.rhs

theorem mem_eraseReps_loop {word current : String} {rest kept : List String} :
    word ∈ List.eraseRepsBy.loop (· == ·) current rest kept ↔
      word ∈ current :: rest ∨ word ∈ kept := by
  induction rest generalizing current kept with
  | nil => simp [List.eraseRepsBy.loop, or_comm]
  | cons next rest ih =>
      rw [List.eraseRepsBy.loop]
      cases hsame : current == next with
      | true =>
          obtain rfl := beq_iff_eq.mp hsame
          simp [ih]
      | false =>
          simp only [ih, List.mem_cons]
          grind

/-- Sorting words and taking each once keeps the words. -/
theorem mem_vocabulary {grammar : Grammar} {entry : Entry} {word : String} :
    word ∈ grammar.vocabulary entry ↔ word ∈ grammar.reachableWords entry := by
  rw [vocabulary, ← reachableWords, List.eraseReps]
  have hsorted : ∀ words : List String,
      word ∈ List.eraseRepsBy (· == ·) words ↔ word ∈ words := by
    intro words
    cases words with
    | nil => rfl
    | cons first rest =>
        rw [List.eraseRepsBy, mem_eraseReps_loop]
        simp
  rw [hsorted, List.mem_mergeSort]

end Grammar

namespace Tokenizer

variable {tokenizer : Tokenizer} {text word : String} {words : List String} {wordNo : Nat}
  {metrics : LexicalMetrics} {tokens : List Token} {stream : TokenStream}

/-- A word of the vocabulary is its own label, in lower case if it must be. -/
theorem classify_eq : tokenizer.classify word wordNo =
    if word ∈ Commands.grammar.reachableWords tokenizer.entry then .ofWord word wordNo
    else if tokenizer.preferences.lowercases = true ∧
        Text.lowercase word ∈ Commands.grammar.reachableWords tokenizer.entry then
      .ofWord (Text.lowercase word) wordNo
    else .free word wordNo := by
  simp only [classify, Commands.vocabulary_eq, List.contains_iff_mem, Bool.and_eq_true,
    Grammar.mem_vocabulary]

theorem classify_wordNo : (tokenizer.classify word wordNo).wordNo = wordNo := by
  rw [classify_eq]
  split
  · rfl
  · split <;> rfl

/-- The tokens of words, without the closing marker. -/
def labelled (tokenizer : Tokenizer) (words : List String) : List Token :=
  words.mapIdx fun place word => tokenizer.classify word place

theorem length_labelled : (tokenizer.labelled words).length = words.length :=
  List.length_mapIdx

theorem labelled_getElem? (place : Nat) :
    (tokenizer.labelled words)[place]? =
      words[place]?.map fun word => tokenizer.classify word place :=
  List.getElem?_mapIdx

/-- Words that are not too long are labelled each by itself. -/
theorem scan_eq_ok_iff : (tokenizer.scan wordNo words metrics).1 = .ok tokens ↔
    (∀ word ∈ words, word.length ≤ Limits.wordLength) ∧
      tokens = words.mapIdx fun place word => tokenizer.classify word (wordNo + place) := by
  induction words generalizing wordNo metrics tokens with
  | nil => simp [scan, eq_comm]
  | cons word rest ih =>
      rw [scan, List.forall_mem_cons, List.mapIdx_cons, Nat.add_zero]
      split
      next hlong => simp [Nat.not_le.mpr hlong]
      next hshort =>
        have hmap : ∀ (result : Except LexicalError (List Token)) (token : Token),
            result.map (token :: ·) = .ok tokens ↔
              ∃ labels, result = .ok labels ∧ token :: labels = tokens := by
          intro result token
          cases result <;> simp [Except.map]
        have hrest : ∀ place word, tokenizer.classify word (wordNo + 1 + place) =
            tokenizer.classify word (wordNo + (place + 1)) := by
          intro place word
          rw [Nat.add_assoc, Nat.add_comm 1]
        dsimp only
        simp only [hmap, ih, hrest]
        constructor
        · rintro ⟨labels, ⟨hlengths, rfl⟩, rfl⟩
          exact ⟨⟨Nat.not_lt.mp hshort, hlengths⟩, rfl⟩
        · rintro ⟨⟨-, hlengths⟩, rfl⟩
          exact ⟨_, ⟨hlengths, rfl⟩, rfl⟩

/-- A text within the limits has the tokens of its words, and the closing marker. -/
theorem tokenizeText_eq_ok_iff : (tokenizer.tokenizeText text).1 = .ok stream ↔
    (Text.words text).length ≤ Limits.words ∧
      (∀ word ∈ Text.words text, word.length ≤ Limits.wordLength) ∧
      stream.tokens =
        tokenizer.labelled (Text.words text) ++ [.closing (Text.words text).length] := by
  rw [tokenizeText]
  dsimp only
  split
  next hmany => simp [Nat.not_le.mpr hmany]
  next hfew =>
    have hscan : ∀ tokens, (tokenizer.scan 0 (Text.words text) tokenizer.metrics).1 = .ok tokens ↔
        (∀ word ∈ Text.words text, word.length ≤ Limits.wordLength) ∧
          tokens = tokenizer.labelled (Text.words text) := by
      intro tokens
      rw [scan_eq_ok_iff, labelled]
      simp only [Nat.zero_add]
    cases hresult : (tokenizer.scan 0 (Text.words text) tokenizer.metrics).1 with
    | error error =>
        simp only [reduceCtorEq, false_iff]
        rintro ⟨-, hlengths, -⟩
        cases hresult.symm.trans ((hscan _).mpr ⟨hlengths, rfl⟩)
    | ok tokens =>
        obtain ⟨hlengths, rfl⟩ := (hscan tokens).mp hresult
        obtain ⟨spoken⟩ := stream
        simp only [Except.ok.injEq, TokenStream.mk.injEq]
        constructor
        · rintro rfl
          exact ⟨Nat.not_lt.mp hfew, hlengths, rfl⟩
        · rintro ⟨-, -, rfl⟩
          rfl

/-- A stream of the tokenizer is closed, and no longer than a parser takes. -/
theorem closed_of_tokenizeText (h : (tokenizer.tokenizeText text).1 = .ok stream) :
    (stream.tokens.map Token.kind).getLast? = some Token.endLabel ∧
      stream.tokens.length ≤ Limits.tokens := by
  obtain ⟨hcount, -, htokens⟩ := tokenizeText_eq_ok_iff.mp h
  rw [htokens, List.map_append, List.length_append, length_labelled]
  exact ⟨List.getLast?_concat .., Nat.succ_le_succ hcount⟩

theorem tokenize_fst (tokenizer : Tokenizer) (text : String) (journal : Log.Journal) :
    ((tokenizer.tokenize text).run journal).1 = tokenizer.tokenizeText text := by
  rw [tokenize]
  generalize tokenizer.tokenizeText text = tokenized
  obtain ⟨result, tokenizer⟩ := tokenized
  cases result with
  | error error => rfl
  | ok stream =>
      dsimp only
      split <;> rfl

end Tokenizer

namespace Pipeline

/-- What a pipeline returns for a text and what it becomes. -/
def processed (pipeline : Pipeline) (text : String) :
    Except PipelineError PipelineResult × Pipeline :=
  let (tokens, tokenizer) := pipeline.tokenizer.tokenizeText text
  match tokens with
  | .error error => (.error (.lexical error), { pipeline with tokenizer })
  | .ok stream =>
      let (outcome, parser) := pipeline.parser.heard stream.tokens
      match outcome with
      | .error error => (.error (.syntactic error), { tokenizer, parser })
      | .ok outcome => (.ok (.make stream outcome parser.session), { tokenizer, parser })

theorem process_fst (pipeline : Pipeline) (text : String) (micros : Nat) (journal : Log.Journal) :
    ((pipeline.process text micros).run journal).1 = pipeline.processed text := by
  rw [process, Parser.bind_fst, Tokenizer.tokenize_fst, processed]
  generalize pipeline.tokenizer.tokenizeText text = tokenized
  obtain ⟨result, tokenizer⟩ := tokenized
  cases result with
  | error error => rfl
  | ok stream =>
      dsimp only
      rw [Parser.bind_fst, Parser.parse_fst]
      generalize pipeline.parser.heard stream.tokens = heard
      obtain ⟨outcome, parser⟩ := heard
      cases outcome with
      | error error => rfl
      | ok outcome => rfl

variable {pipeline : Pipeline} {text : String} {stream : TokenStream} {outcome : ParseOutcome}

/-- A result is made of what the parser heard. -/
theorem exists_heard_of_processed {result : PipelineResult}
    (h : (pipeline.processed text).1 = .ok result) :
    ∃ stream outcome, (pipeline.tokenizer.tokenizeText text).1 = .ok stream ∧
      (pipeline.parser.heard stream.tokens).1 = .ok outcome ∧ result.action = outcome.action := by
  rw [processed] at h
  dsimp only at h
  cases htokens : (pipeline.tokenizer.tokenizeText text).1 with
  | error error =>
      rw [htokens] at h
      cases h
  | ok stream =>
      simp only [htokens] at h
      cases houtcome : (pipeline.parser.heard stream.tokens).1 with
      | error error =>
          rw [houtcome] at h
          cases h
      | ok outcome =>
          rw [houtcome] at h
          cases h
          exact ⟨stream, outcome, rfl, houtcome, rfl⟩

theorem processed_of_accepted (htokens : (pipeline.tokenizer.tokenizeText text).1 = .ok stream)
    (h : (pipeline.parser.heard stream.tokens).1 = .ok outcome) :
    (pipeline.processed text).1 =
        .ok (.make stream outcome (pipeline.parser.heard stream.tokens).2.session) ∧
      (pipeline.processed text).2.parser = (pipeline.parser.heard stream.tokens).2 := by
  rw [processed]
  simp only [htokens, h, and_self]

theorem processed_of_rejected {error : ParseError}
    (htokens : (pipeline.tokenizer.tokenizeText text).1 = .ok stream)
    (h : (pipeline.parser.heard stream.tokens).1 = .error error) :
    (pipeline.processed text).1 = .error (.syntactic error) := by
  rw [processed]
  simp only [htokens, h]

end Pipeline

end SpokenKeys
