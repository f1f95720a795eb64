import Mathlib.Data.List.Perm.Basic
import SpokenKeys.Proofs.FaithfulTokens

/-!
What a tokenizer counts. Every word is counted as it is labelled, and the utterance
when all of its words are. A text that is refused for a word therefore leaves the words
before that one in the counts, although the text itself is in none of them; a text that
is refused for the number of its words is not counted at all.
-/

namespace SpokenKeys

namespace LexicalMetrics

/-- The counts after more words, of which some are free text, and more utterances. -/
def counting (metrics : LexicalMetrics) (isFree : String → Bool) (words : List String)
    (utterances : Nat) : LexicalMetrics where
  utterances := metrics.utterances + utterances
  totalWords := metrics.totalWords + words.length
  vocabularyWords := metrics.vocabularyWords + words.countP fun word => !isFree word
  freeWords := metrics.freeWords + words.countP isFree
  longestWord := (words.map String.length).foldl max metrics.longestWord

variable {metrics : LexicalMetrics} {isFree : String → Bool} {words : List String}

theorem counting_nil : metrics.counting isFree [] 0 = metrics := rfl

theorem counting_counting (words more : List String) (utterances others : Nat) :
    (metrics.counting isFree words utterances).counting isFree more others =
      metrics.counting isFree (words ++ more) (utterances + others) := by
  simp [counting, Nat.add_assoc]

/-- The order of the words has no part in the counts. -/
theorem counting_perm {more : List String} (h : words.Perm more) (utterances : Nat) :
    metrics.counting isFree words utterances = metrics.counting isFree more utterances := by
  have hlongest := (h.map String.length).foldl_eq metrics.longestWord (f := max)
  unfold counting
  rw [h.length_eq, h.countP_eq, h.countP_eq, hlongest]

/-- Counts without another utterance stay as they were only if no word is counted. -/
theorem counting_eq_self_iff : metrics.counting isFree words 0 = metrics ↔ words = [] := by
  constructor
  · intro hsame
    have htotal : metrics.totalWords + words.length = metrics.totalWords :=
      congrArg totalWords hsame
    exact List.eq_nil_of_length_eq_zero (by omega)
  · rintro rfl
    exact counting_nil

end LexicalMetrics

namespace Tokenizer

variable {tokenizer : Tokenizer} {text : String} {words : List String} {wordNo : Nat}
  {metrics : LexicalMetrics} {error : LexicalError}

/-- Whether the tokenizer labels a word as free text. -/
def isFree (tokenizer : Tokenizer) (word : String) : Bool := (tokenizer.classify word 0).isAny

/-- The place of a word has no part in whether it is free text. -/
theorem classify_isAny (word : String) (wordNo : Nat) :
    (tokenizer.classify word wordNo).isAny = tokenizer.isFree word := by
  rw [isFree, Bool.eq_iff_iff, classify_standsFor.isAny_iff, classify_standsFor.isAny_iff]

theorem record_classify (word : String) (wordNo : Nat) :
    metrics.record (tokenizer.classify word wordNo) word.length =
      metrics.counting tokenizer.isFree [word] 0 := by
  rw [LexicalMetrics.record, classify_isAny]
  cases hfree : tokenizer.isFree word <;> simp [LexicalMetrics.counting, hfree]

/-- Whether a word is not too long. -/
def fits (word : String) : Bool := decide (word.length ≤ Limits.wordLength)

/-- Scanning counts the words before the first one that is too long. -/
theorem scan_metrics : (tokenizer.scan wordNo words metrics).2 =
    metrics.counting tokenizer.isFree (words.takeWhile fits) 0 := by
  induction words generalizing wordNo metrics with
  | nil => rfl
  | cons word rest ih =>
      unfold scan
      split
      next hlong =>
        have hunfit : fits word = false := decide_eq_false (Nat.not_le.mpr hlong)
        rw [List.takeWhile_cons_of_neg (by simp [hunfit]), LexicalMetrics.counting_nil]
      next hshort =>
        have hfits : fits word = true := decide_eq_true (Nat.not_lt.mp hshort)
        dsimp only
        rw [ih, record_classify, LexicalMetrics.counting_counting, List.takeWhile_cons_of_pos hfits]
        rfl

/-- Whether a text is within the limits on words. -/
def accepts (text : String) : Bool :=
  decide ((Text.words text).length ≤ Limits.words) && (Text.words text).all fits

/-- The words of a text that are counted. -/
def countedWords (text : String) : List String :=
  if (Text.words text).length ≤ Limits.words then (Text.words text).takeWhile fits else []

theorem countedWords_of_accepts (h : accepts text = true) :
    countedWords text = Text.words text := by
  rw [accepts, Bool.and_eq_true, decide_eq_true_eq, List.all_eq_true] at h
  obtain ⟨hcount, hfits⟩ := h
  rw [countedWords, if_pos hcount, List.takeWhile_eq_self_iff]
  exact hfits

/-- The counts have no part in which texts are accepted. -/
theorem accepts_eq (tokenizer : Tokenizer) (text : String) :
    accepts text = (tokenizer.tokenizeText text).1.isOk := by
  have haccepts : accepts text = true ↔
      ∃ stream, (tokenizer.tokenizeText text).1 = .ok stream := by
    simp only [accepts, fits, Bool.and_eq_true, List.all_eq_true, decide_eq_true_eq,
      tokenizeText_eq_ok_iff]
    constructor
    · rintro ⟨hcount, hlengths⟩
      exact ⟨⟨_⟩, hcount, hlengths, rfl⟩
    · rintro ⟨stream, hcount, hlengths, -⟩
      exact ⟨hcount, hlengths⟩
  rw [Bool.eq_iff_iff, haccepts]
  cases (tokenizer.tokenizeText text).1 <;> simp [Except.isOk, Except.toBool]

/-- Tokenizing changes the counts only: the counted words are added, and the
utterance if it is accepted. -/
theorem tokenizeText_snd (tokenizer : Tokenizer) (text : String) :
    (tokenizer.tokenizeText text).2 =
      { tokenizer with
        metrics := tokenizer.metrics.counting tokenizer.isFree (countedWords text)
          (if accepts text then 1 else 0) } := by
  have hscan : (tokenizer.scan 0 (Text.words text) tokenizer.metrics).2 = _ := scan_metrics
  rw [accepts_eq tokenizer]
  unfold countedWords tokenizeText
  dsimp only
  split
  next hmany =>
    rw [if_neg (Nat.not_le.mpr hmany)]
    rfl
  next hfew =>
    rw [if_pos (Nat.not_lt.mp hfew), hscan]
    cases (tokenizer.scan 0 (Text.words text) tokenizer.metrics).1 <;> rfl

/-- A text that is refused counts the words before the one that is blamed, if any is. -/
theorem countedWords_of_error (h : (tokenizer.tokenizeText text).1 = .error error) :
    countedWords text = (Text.words text).take (error.wordNo?.getD 0) ∧
      error.wordNo?.getD 0 ≤ (Text.words text).length := by
  unfold countedWords
  split
  next hcount =>
    have hrefused : ¬∀ word ∈ Text.words text, word.length ≤ Limits.wordLength := by
      intro hlengths
      have haccepts : accepts text = true := by simpa [accepts, fits, hcount] using hlengths
      rw [accepts_eq tokenizer, h] at haccepts
      cases haccepts
    obtain ⟨front, word, rest, hwords, hfront, hword⟩ := exists_first_tooLong hrefused
    rw [tokenizeText_tooLong hcount hwords hfront hword] at h
    cases h
    have hunfit : fits word = false := decide_eq_false (Nat.not_le.mpr hword)
    have hfits : ∀ earlier ∈ front, fits earlier = true := by
      intro earlier hearlier
      exact decide_eq_true (hfront earlier hearlier)
    rw [hwords, List.takeWhile_append_of_pos hfits, List.takeWhile_cons_of_neg (by simp [hunfit])]
    simp [LexicalError.wordNo?]
  next hcount =>
    rw [tokenizeText_tooMany (Nat.not_le.mp hcount)] at h
    cases h
    exact ⟨rfl, Nat.zero_le _⟩

theorem metrics_of_ok {stream : TokenStream}
    (h : (tokenizer.tokenizeText text).1 = .ok stream) :
    (tokenizer.tokenizeText text).2.metrics =
      tokenizer.metrics.counting tokenizer.isFree (Text.words text) 1 := by
  have haccepts : accepts text = true := by
    rw [accepts_eq tokenizer, h]
    rfl
  rw [tokenizeText_snd, countedWords_of_accepts haccepts, haccepts]
  rfl

theorem metrics_of_error (h : (tokenizer.tokenizeText text).1 = .error error) :
    (tokenizer.tokenizeText text).2.metrics = tokenizer.metrics.counting tokenizer.isFree
      ((Text.words text).take (error.wordNo?.getD 0)) 0 := by
  have haccepts : accepts text = false := by
    rw [accepts_eq tokenizer, h]
    rfl
  rw [tokenizeText_snd, (countedWords_of_error h).1, haccepts]
  rfl

/-- The words of accepted texts are counted, and those before a fault. -/
theorem flatMap_countedWords_perm (texts : List String) :
    (texts.flatMap countedWords).Perm ((texts.filter accepts).flatMap Text.words ++
      (texts.filter fun text => !accepts text).flatMap countedWords) := by
  induction texts with
  | nil => exact .refl []
  | cons text rest ih =>
      rw [List.flatMap_cons]
      cases haccepts : accepts text with
      | true =>
          rw [List.filter_cons_of_pos haccepts, List.filter_cons_of_neg (by simp [haccepts]),
            List.flatMap_cons, List.append_assoc, countedWords_of_accepts haccepts]
          exact ih.append_left _
      | false =>
          rw [List.filter_cons_of_neg (by simp [haccepts]),
            List.filter_cons_of_pos (by simp [haccepts]), List.flatMap_cons]
          exact (ih.append_left _).trans (List.perm_append_comm_assoc ..)

/-- The texts tokenized one after the other. -/
def tokenizeAll (tokenizer : Tokenizer) :
    List String → Log.Logging (List (Except LexicalError TokenStream) × Tokenizer)
  | [] => return ([], tokenizer)
  | text :: rest => do
      let (reply, tokenizer) ← tokenizer.tokenize text
      let (replies, tokenizer) ← tokenizer.tokenizeAll rest
      return (reply :: replies, tokenizer)

theorem tokenizeAll_cons_fst (tokenizer : Tokenizer) (text : String) (rest : List String)
    (journal : Log.Journal) :
    ((tokenizer.tokenizeAll (text :: rest)).run journal).1 =
      let (reply, after) := tokenizer.tokenizeText text
      let (replies, final) :=
        ((after.tokenizeAll rest).run ((tokenizer.tokenize text).run journal).2).1
      (reply :: replies, final) := by
  rw [← tokenize_fst tokenizer text journal]
  rfl

/-- A run accepts the texts that are accepted alone, and counts for each text what it
counts alone. -/
theorem tokenizeAll_fst (tokenizer : Tokenizer) (texts : List String) (journal : Log.Journal) :
    let (replies, final) := ((tokenizer.tokenizeAll texts).run journal).1
    replies.map Except.isOk = texts.map accepts ∧
      final = { tokenizer with
        metrics := tokenizer.metrics.counting tokenizer.isFree (texts.flatMap countedWords)
          (texts.countP accepts) } := by
  induction texts generalizing tokenizer journal with
  | nil => exact ⟨rfl, rfl⟩
  | cons text rest ih =>
      have hrest := ih (tokenizer.tokenizeText text).2 ((tokenizer.tokenize text).run journal).2
      rw [tokenizeAll_cons_fst]
      dsimp only at hrest ⊢
      obtain ⟨hreplies, hfinal⟩ := hrest
      constructor
      · rw [List.map_cons, List.map_cons, hreplies, accepts_eq tokenizer]
      · have hsame : (tokenizer.tokenizeText text).2.isFree = tokenizer.isFree := by
          rw [tokenizeText_snd]
          rfl
        rw [hfinal, hsame, tokenizeText_snd]
        dsimp only
        rw [LexicalMetrics.counting_counting, List.flatMap_cons, List.countP_cons,
          Nat.add_comm (ite _ _ _)]

theorem tokenizeAll_accepted (tokenizer : Tokenizer) (texts : List String)
    (journal : Log.Journal) :
    ((tokenizer.tokenizeAll (texts.filter accepts)).run journal).1.2.metrics =
      tokenizer.metrics.counting tokenizer.isFree ((texts.filter accepts).flatMap Text.words)
        (texts.filter accepts).length := by
  obtain ⟨-, hfinal⟩ := tokenizer.tokenizeAll_fst (texts.filter accepts) journal
  have hcount : (texts.filter accepts).countP accepts = (texts.filter accepts).length := by
    rw [List.countP_eq_length]
    intro text htext
    exact (List.mem_filter.mp htext).2
  have hwords : (texts.filter accepts).flatMap countedWords =
      (texts.filter accepts).flatMap Text.words := by
    apply List.flatMap_congr
    intro text htext
    exact countedWords_of_accepts (List.mem_filter.mp htext).2
  rw [hfinal, hcount, hwords]

/-- The refused texts of a run can be counted last. -/
theorem counting_texts (metrics : LexicalMetrics) (isFree : String → Bool) (texts : List String) :
    metrics.counting isFree (texts.flatMap countedWords) (texts.countP accepts) =
      (metrics.counting isFree ((texts.filter accepts).flatMap Text.words)
        (texts.filter accepts).length).counting isFree
          ((texts.filter fun text => !accepts text).flatMap countedWords) 0 := by
  rw [LexicalMetrics.counting_perm (flatMap_countedWords_perm texts),
    LexicalMetrics.counting_counting, List.countP_eq_length_filter, Nat.add_zero]

end Tokenizer

open Tokenizer

/-- A text that is accepted counts its words and one utterance. A text that is refused
counts the words before the one that is blamed and no utterance; it leaves the counts as
they were only if its first word is blamed or none is. The counts after a run are those
after a run of the accepted texts alone, and these words of the refused ones besides. -/
theorem refused_texts_count_words_before_fault (tokenizer : Tokenizer) :
    (∀ (text : String) (journal : Log.Journal),
      let (reply, after) := ((tokenizer.tokenize text).run journal).1
      match reply with
      | .ok _ => after.metrics = tokenizer.metrics.counting tokenizer.isFree (Text.words text) 1
      | .error error =>
          let before := (Text.words text).take (error.wordNo?.getD 0)
          after.metrics = tokenizer.metrics.counting tokenizer.isFree before 0 ∧
            (after.metrics = tokenizer.metrics ↔ error.wordNo?.getD 0 = 0)) ∧
    (∀ (texts : List String) (journal later : Log.Journal),
      let (replies, final) := ((tokenizer.tokenizeAll texts).run journal).1
      let accepted := texts.filter accepts
      let refused := texts.filter fun text => !accepts text
      let (_, alone) := ((tokenizer.tokenizeAll accepted).run later).1
      replies.map Except.isOk = texts.map accepts ∧
        alone.metrics = tokenizer.metrics.counting tokenizer.isFree
          (accepted.flatMap Text.words) accepted.length ∧
        final.metrics = alone.metrics.counting tokenizer.isFree
          (refused.flatMap countedWords) 0 ∧
        (final.metrics = alone.metrics ↔ ∀ text ∈ refused, countedWords text = [])) := by
  constructor
  · intro text journal
    rw [tokenize_fst]
    dsimp only
    cases hreply : (tokenizer.tokenizeText text).1 with
    | error error =>
        have hmetrics := metrics_of_error hreply
        refine ⟨hmetrics, ?_⟩
        rw [hmetrics, LexicalMetrics.counting_eq_self_iff, List.take_eq_nil_iff]
        refine or_iff_left_of_imp fun hnone => ?_
        have hle := (countedWords_of_error hreply).2
        rw [hnone] at hle
        exact Nat.le_zero.mp hle
    | ok stream => exact metrics_of_ok hreply
  · intro texts journal later
    obtain ⟨hreplies, hfinal⟩ := tokenizer.tokenizeAll_fst texts journal
    dsimp only
    rw [hfinal, tokenizeAll_accepted, counting_texts]
    refine ⟨hreplies, rfl, rfl, ?_⟩
    rw [LexicalMetrics.counting_eq_self_iff, List.flatMap_eq_nil_iff]

/-- A text that is refused for its second word leaves the first one in the counts. -/
theorem refused_text_changes_counts :
    let tokenizer : Tokenizer := { entry := .strict, preferences := {} }
    let text := "up " ++ "".pushn 'x' 65
    let (reply, after) := ((tokenizer.tokenize text).run {}).1
    reply = .error (.wordTooLong 1 65 64) ∧
      after.metrics = { totalWords := 1, vocabularyWords := 1, longestWord := 2 } ∧
      after.metrics ≠ tokenizer.metrics := by
  intro tokenizer text
  have hwords : Text.words text = ["up"] ++ "".pushn 'x' 65 :: [] := by decide +kernel
  have hreply : (tokenizer.tokenizeText text).1 = .error (.wordTooLong 1 65 64) :=
    tokenizeText_tooLong (by rw [hwords]; decide) hwords (by decide) (by decide)
  have hfree : tokenizer.isFree "up" = false := by
    rw [isFree, classify_eq]
    decide +kernel
  have hcounted : countedWords text = ["up"] := by
    rw [(countedWords_of_error hreply).1, hwords]
    rfl
  rw [tokenize_fst]
  dsimp only
  rw [tokenizeText_snd, hcounted, accepts_eq tokenizer, hreply]
  have hmetrics : tokenizer.metrics.counting tokenizer.isFree ["up"] 0 =
      { totalWords := 1, vocabularyWords := 1, longestWord := 2 } := by
    rw [LexicalMetrics.counting, List.countP_singleton, List.countP_singleton, hfree]
    decide
  refine ⟨rfl, hmetrics, ?_⟩
  intro hsame
  cases hmetrics.symm.trans hsame

end SpokenKeys
