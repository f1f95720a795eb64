import SpokenKeys.Proofs.FaithfulTokens
import SpokenKeys.Proofs.Rejection

/-!
Which spoken word is to blame. The tokens of a text within the tokenizer's limits
are within the parser's, so a pipeline refuses a text that is tokenized for one of
its tokens only: the first that no sentence goes on through, which is numbered by
its place and stands for the word at that place, or closes the text.
-/

namespace SpokenKeys

open Commands

namespace Tokenizer

/-- The token at a place is numbered by it, and closes the words or stands for the
word there. -/
theorem token_at {tokenizer : Tokenizer} {words : List String} {place : Nat} {token : Token}
    (h : (tokenizer.labelled words ++ [.closing words.length])[place]? = some token) :
    token.wordNo = place ∧
      (place = words.length ∧ token.isEnd = true ∨
        ∃ hplace : place < words.length, tokenizer.StandsFor token words[place]) := by
  by_cases hplace : place < words.length
  · rw [List.getElem?_append_left (by rwa [length_labelled]), labelled_getElem?,
      List.getElem?_eq_getElem hplace] at h
    obtain rfl := Option.some.inj h
    exact ⟨classify_wordNo, .inr ⟨hplace, classify_standsFor⟩⟩
  · rw [List.getElem?_append_right (by rwa [length_labelled, ← Nat.not_lt]),
      List.getElem?_singleton, length_labelled] at h
    obtain ⟨hlast, hclosing⟩ := Option.ite_none_right_eq_some.mp h
    obtain rfl := Option.some.inj hclosing
    have hend : words.length = place := by omega
    exact ⟨hend, .inl ⟨hend.symm, rfl⟩⟩

end Tokenizer

/-- The labels before a place begin a sentence if those up to each earlier place do;
with no place before it they do because every nonterminal derives something. -/
theorem begins_take {rule : Rule} {labels : List String} {place : Nat}
    (h : ∀ earlier < place, grammar.Begins rule (labels.take (earlier + 1))) :
    grammar.Begins rule (labels.take place) := by
  cases place with
  | zero => exact productive rule
  | succ last => exact h last (Nat.lt_succ_self last)

namespace Pipeline

/-- A token is to blame for a text that is not understood. It is the closing marker,
numbered by the number of words, or its text is the word at the place it is numbered
by, or the word's lower-case form; and it is the first one of the stream whose label
no sentence goes on through. -/
structure Blames (pipeline : Pipeline) (text : String) (stream : TokenStream)
    (token : Token) : Prop where
  spoken : token.wordNo = (Text.words text).length ∧ token.isEnd = true ∨
    ∃ hplace : token.wordNo < (Text.words text).length,
      token.text = (Text.words text)[token.wordNo] ∨
        token.text = Text.lowercase (Text.words text)[token.wordNo]
  viable : grammar.Begins pipeline.parser.entry.rule
    ((stream.tokens.map Token.kind).take token.wordNo)
  unviable : ¬ grammar.Begins pipeline.parser.entry.rule
    ((stream.tokens.map Token.kind).take (token.wordNo + 1))

variable {pipeline : Pipeline} {text : String} {stream : TokenStream}

theorem processed_of_untokenized {error : LexicalError}
    (h : (pipeline.tokenizer.tokenizeText text).1 = .error error) :
    (pipeline.processed text).1 = .error (.lexical error) := by
  rw [processed]
  simp only [h]

/-- A text that is tokenized is understood if it is a sentence, and has a token to
blame if it is not. -/
theorem processed_of_tokenized (h : (pipeline.tokenizer.tokenizeText text).1 = .ok stream) :
    (grammar.Generates pipeline.parser.entry.rule (stream.tokens.map Token.kind) ∧
      ∃ result, (pipeline.processed text).1 = .ok result) ∨
    (¬ grammar.Generates pipeline.parser.entry.rule (stream.tokens.map Token.kind) ∧
      ∃ token, (pipeline.processed text).1 = .error (.syntactic (.unexpectedToken token)) ∧
        pipeline.Blames text stream token) := by
  obtain ⟨hclosed, hlength⟩ := Tokenizer.closed_of_tokenizeText h
  rcases pipeline.parser.heard_closed hclosed hlength with
    ⟨hsentence, outcome, houtcome⟩ | ⟨hnot, last, token, htoken, hbefore, hafter, herror⟩
  · exact .inl ⟨hsentence, _, (processed_of_accepted h houtcome).1⟩
  · rw [(Tokenizer.tokenizeText_eq_ok_iff.mp h).2.2] at htoken
    obtain ⟨rfl, hstands⟩ := Tokenizer.token_at htoken
    refine .inr ⟨hnot, token, processed_of_rejected h herror, ?_⟩
    exact {
      spoken := hstands.imp_right fun ⟨hplace, hword⟩ => ⟨hplace, hword.text_eq⟩
      viable := begins_take hbefore
      unviable := hafter }

/-- A parser is never given an empty stream or one that is too long: what it refuses
in a pipeline, it refuses for an unexpected token. -/
theorem unexpected_of_syntactic {error : ParseError}
    (h : (pipeline.processed text).1 = .error (.syntactic error)) :
    ∃ token, error = .unexpectedToken token := by
  cases htokenized : (pipeline.tokenizer.tokenizeText text).1 with
  | error lexical => cases h.symm.trans (processed_of_untokenized htokenized)
  | ok stream =>
      rcases processed_of_tokenized htokenized with
        ⟨-, result, hreply⟩ | ⟨-, token, hreply, -⟩
      · cases h.symm.trans hreply
      · cases h.symm.trans hreply
        exact ⟨token, rfl⟩

end Pipeline

/-- A pipeline refuses no text for being empty or too long for its parser, and it
blames the right word. A text that is not tokenized is refused for the tokenizer's
reason, a sentence of the parser's entry point has a result, and any other text is
refused for the unexpected token that is to blame. -/
theorem right_word_blamed (pipeline : Pipeline) (text : String) (micros : Nat)
    (journal : Log.Journal) :
    let start := pipeline.parser.entry.rule
    let tokenized := ((pipeline.tokenizer.tokenize text).run journal).1.1
    let reply := ((pipeline.process text micros).run journal).1.1
    reply ≠ .error (.syntactic .emptyStream) ∧
    (∀ count max, reply ≠ .error (.syntactic (.tooLong count max))) ∧
    ((∃ error, tokenized = .error error ∧ reply = .error (.lexical error)) ∨
      ∃ stream, tokenized = .ok stream ∧
        (grammar.Generates start (stream.tokens.map Token.kind) ∧ (∃ result, reply = .ok result) ∨
          ¬ grammar.Generates start (stream.tokens.map Token.kind) ∧
            ∃ token, reply = .error (.syntactic (.unexpectedToken token)) ∧
              pipeline.Blames text stream token)) := by
  simp only [Pipeline.process_fst, Tokenizer.tokenize_fst]
  refine ⟨fun hempty => ?_, fun count max hlong => ?_, ?_⟩
  · obtain ⟨token, htoken⟩ := Pipeline.unexpected_of_syntactic hempty
    cases htoken
  · obtain ⟨token, htoken⟩ := Pipeline.unexpected_of_syntactic hlong
    cases htoken
  · cases htokenized : (pipeline.tokenizer.tokenizeText text).1 with
    | error error => exact .inl ⟨error, rfl, Pipeline.processed_of_untokenized htokenized⟩
    | ok stream => exact .inr ⟨stream, rfl, Pipeline.processed_of_tokenized htokenized⟩

/-- The word "sky" wants a letter after it, so the next word is to blame, as it was spoken;
the first word is known by its lower-case form. -/
theorem second_word_blamed :
    ∃ stream token,
      (((Pipeline.ofParts { entry := .strict } {}).tokenizer.tokenize "Sky BANANA").run {}).1.1 =
        .ok stream ∧
      (((Pipeline.ofParts { entry := .strict } {}).process "Sky BANANA" 0).run {}).1.1 =
        .error (.syntactic (.unexpectedToken token)) ∧
      stream.tokens.map Token.kind = ["sky", Token.anyLabel, Token.endLabel] ∧
      token.wordNo = 1 ∧ token.text = "BANANA" ∧
      (Pipeline.ofParts { entry := .strict } {}).Blames "Sky BANANA" stream token := by
  have hheard : ((Pipeline.ofParts { entry := .strict } {}).parser.heard
      [.ofWord "sky" 0, .free "BANANA" 1, .closing 2]).1 =
      .error (.unexpectedToken (.free "BANANA" 1)) := by
    decide +kernel
  have hagrees : (Pipeline.ofParts { entry := .strict } {}).tokenizer =
      { entry := .strict, preferences := {} } :=
    rfl
  generalize Pipeline.ofParts { entry := .strict } {} = pipeline at hheard hagrees ⊢
  have htokens : (pipeline.tokenizer.tokenizeText "Sky BANANA").1 =
      .ok ⟨[.ofWord "sky" 0, .free "BANANA" 1, .closing 2]⟩ := by
    have hwords : Text.words "Sky BANANA" = ["Sky", "BANANA"] := by decide +kernel
    have hsky : pipeline.tokenizer.classify "Sky" 0 = .ofWord "sky" 0 := by
      rw [Tokenizer.classify_eq, hagrees]
      decide +kernel
    have hfree : pipeline.tokenizer.classify "BANANA" 1 = .free "BANANA" 1 := by
      rw [Tokenizer.classify_eq, hagrees]
      decide +kernel
    rw [Tokenizer.tokenizeText_eq_ok_iff, hwords, Tokenizer.labelled]
    exact ⟨by decide, by decide, by simp [hsky, hfree]⟩
  have htokenized : ((pipeline.tokenizer.tokenize "Sky BANANA").run {}).1.1 =
      .ok ⟨[.ofWord "sky" 0, .free "BANANA" 1, .closing 2]⟩ := by
    rw [Tokenizer.tokenize_fst, htokens]
  have hreply : ((pipeline.process "Sky BANANA" 0).run {}).1.1 =
      .error (.syntactic (.unexpectedToken (.free "BANANA" 1))) := by
    rw [Pipeline.process_fst, Pipeline.processed_of_rejected htokens hheard]
  obtain ⟨-, -, hcases⟩ := right_word_blamed pipeline "Sky BANANA" 0 {}
  rcases hcases with ⟨error, hrefused, -⟩ |
    ⟨stream, hstream, ⟨-, result, hresult⟩ | ⟨-, token, hblamed, hblames⟩⟩
  · cases hrefused.symm.trans htokenized
  · cases hresult.symm.trans hreply
  · cases hstream.symm.trans htokenized
    cases hblamed.symm.trans hreply
    exact ⟨_, _, htokenized, hreply, rfl, rfl, rfl, hblames⟩

end SpokenKeys
