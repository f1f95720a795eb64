import Mathlib.Data.List.Forall2
import SpokenKeys.Proofs.Tokenizing
import SpokenKeys.Proofs.Words

/-!
Tokenizing is faithful and stable. A text within the limits becomes a stream
without defects, in which every word stands at its place, as itself if the
vocabulary has it and as free text otherwise; and the stream read back as a text
becomes the same stream. Any other text is refused for its number of words or for
its first word that is too long.
-/

namespace SpokenKeys

namespace TokenStream

theorem firstDisorder?_eq_none_iff {tokens : List Token} :
    firstDisorder? tokens = none ↔ (tokens.map Token.wordNo).IsChain (· < ·) := by
  fun_induction firstDisorder? tokens with
  | case1 first second rest hdisorder =>
      simp [Nat.not_lt.mpr hdisorder]
  | case2 first second rest horder ih =>
      simp [ih, Nat.not_le.mp horder]
  | case3 tokens hshort =>
      match tokens with
      | [] => simp
      | [_] => simp
      | first :: second :: rest => exact absurd rfl (hshort first second rest)

/-- A stream without a defect ends in its only closing marker, and its word numbers
ascend. -/
theorem defect?_eq_none_iff {body : List Token} {closing : Token} :
    defect? ⟨body ++ [closing]⟩ = none ↔
      closing.isEnd = true ∧ (∀ token ∈ body, token.isEnd = false) ∧
        ((body ++ [closing]).map Token.wordNo).IsChain (· < ·) := by
  have hnonempty : (body ++ [closing]).isEmpty = false := by simp
  have hlast : (⟨body ++ [closing]⟩ : TokenStream).hasEnd = closing.isEnd := by simp [hasEnd]
  rw [defect?, hnonempty, hlast]
  cases hend : closing.isEnd with
  | false => simp
  | true =>
      have hcount : (⟨body ++ [closing]⟩ : TokenStream).endCount = body.countP Token.isEnd + 1 := by
        simp [endCount, hend]
      have hplain : ¬1 < body.countP Token.isEnd + 1 ↔ ∀ token ∈ body, token.isEnd = false := by
        rw [Nat.lt_add_left_iff_pos, Nat.pos_iff_ne_zero, not_not, List.countP_eq_zero]
        simp only [Bool.not_eq_true]
      by_cases hbody : ∀ token ∈ body, token.isEnd = false
      · simpa [hcount, hplain.mpr hbody, -List.map_append, firstDisorder?_eq_none_iff] using
          fun _ => hbody
      · simp [hcount, not_not.mp (mt hplain.mp hbody), hbody]

end TokenStream

namespace Commands

/-- Whether a symbol, if it is a terminal, can be spoken as one word. -/
def isSpeakable : Symbol → Bool
  | .terminal label =>
      !label.toList.isEmpty && label.toList.all (fun c => !Text.isBlank c) &&
        Nat.ble label.length Limits.wordLength
  | .rule _ => true

theorem isSpeakable_of_mem : ∀ production ∈ grammar.table,
    production.rhs.all isSpeakable = true :=
  forall_table (by decide +kernel)

/-- The words of a vocabulary are terminals of the grammar that stand for themselves. -/
theorem terminal_of_mem_vocabulary {entry : Entry} {word : String} (h : word ∈ vocabulary entry) :
    (∃ production ∈ grammar.table, Symbol.terminal word ∈ production.rhs) ∧
      word ≠ Token.anyLabel ∧ word ≠ Token.endLabel := by
  rw [vocabulary_eq, Grammar.mem_vocabulary] at h
  obtain ⟨production, hproduction, hword⟩ := List.mem_flatMap.mp h
  obtain ⟨symbol, hsymbol, hlabel⟩ := List.mem_filterMap.mp hword
  cases symbol with
  | rule rule => cases hlabel
  | terminal label =>
      dsimp only at hlabel
      split at hlabel
      next => cases hlabel
      next hother =>
        obtain rfl := Option.some.inj hlabel
        exact ⟨⟨production, List.mem_of_mem_filter hproduction, hsymbol⟩,
          fun hany => hother (.inl hany), fun hend => hother (.inr hend)⟩

/-- The words of a vocabulary are words within the limit, and spelled otherwise
than the labels of free text and of the closing marker. -/
theorem word_of_mem_vocabulary {entry : Entry} {word : String} (h : word ∈ vocabulary entry) :
    word ≠ Token.anyLabel ∧ word ≠ Token.endLabel ∧ Text.IsWord word.toList ∧
      word.length ≤ Limits.wordLength := by
  obtain ⟨⟨production, hproduction, hterminal⟩, hany, hend⟩ := terminal_of_mem_vocabulary h
  have hspeakable := List.all_eq_true.mp (isSpeakable_of_mem production hproduction) _ hterminal
  simp only [isSpeakable, Bool.and_eq_true, Bool.not_eq_true', List.isEmpty_eq_false_iff,
    List.all_eq_true, Nat.ble_eq] at hspeakable
  obtain ⟨hisWord, hlength⟩ := hspeakable
  exact ⟨hany, hend, hisWord, hlength⟩

end Commands

namespace Tokenizer

variable {tokenizer : Tokenizer} {text word : String} {words front rest : List String}
  {wordNo : Nat}

/-- A word is known if the vocabulary has it, or has its lower-case form and the
preferences ask for that. -/
def Knows (tokenizer : Tokenizer) (word : String) : Prop :=
  word ∈ Commands.vocabulary tokenizer.entry ∨
    tokenizer.preferences.lowercases = true ∧
      Text.lowercase word ∈ Commands.vocabulary tokenizer.entry

/-- A token stands for a spoken word. No word is the closing marker; a word that is
not known is free text and kept as spoken; and the label of a known word is a word of
the vocabulary, which is the spoken word or its lower-case form. -/
structure StandsFor (tokenizer : Tokenizer) (token : Token) (word : String) : Prop where
  isEnd_eq : token.isEnd = false
  isAny_iff : token.isAny = true ↔ ¬tokenizer.Knows word
  free : token.isAny = true → token.extra = some word
  known : token.isAny = false →
    token.kind ∈ Commands.vocabulary tokenizer.entry ∧ token.extra = none ∧
      (token.kind = word ∨
        tokenizer.preferences.lowercases = true ∧ token.kind = Text.lowercase word)

/-- The text of a token is the word it stands for, or the word's lower-case form. -/
theorem StandsFor.text_eq {token : Token} (h : tokenizer.StandsFor token word) :
    token.text = word ∨ token.text = Text.lowercase word := by
  cases hany : token.isAny with
  | true =>
      rw [Token.text, h.free hany]
      exact .inl rfl
  | false =>
      obtain ⟨-, hextra, hkind⟩ := h.known hany
      rw [Token.text, hextra]
      exact hkind.imp_right And.right

/-- How a word is labelled: as the vocabulary has it, or as free text. -/
theorem classify_cases (tokenizer : Tokenizer) (word : String) (wordNo : Nat) :
    (∃ known ∈ Commands.vocabulary tokenizer.entry, tokenizer.Knows word ∧
        (known = word ∨ tokenizer.preferences.lowercases = true ∧ known = Text.lowercase word) ∧
        tokenizer.classify word wordNo = .ofWord known wordNo) ∨
      (¬tokenizer.Knows word ∧ tokenizer.classify word wordNo = .free word wordNo) := by
  simp only [classify_eq, ← Grammar.mem_vocabulary, ← Commands.vocabulary_eq]
  split
  next hword => exact .inl ⟨word, hword, .inl hword, .inl rfl, rfl⟩
  next hword =>
    split
    next hlower => exact .inl ⟨_, hlower.2, .inr hlower, .inr ⟨hlower.1, rfl⟩, rfl⟩
    next hlower => exact .inr ⟨not_or.mpr ⟨hword, hlower⟩, rfl⟩

theorem classify_of_mem (h : word ∈ Commands.vocabulary tokenizer.entry) :
    tokenizer.classify word wordNo = .ofWord word wordNo := by
  rw [Commands.vocabulary_eq, Grammar.mem_vocabulary] at h
  rw [classify_eq, if_pos h]

theorem classify_standsFor : tokenizer.StandsFor (tokenizer.classify word wordNo) word := by
  obtain ⟨known, hmem, hknows, hspelled, htoken⟩ | ⟨hunknown, htoken⟩ :=
    classify_cases tokenizer word wordNo
  · obtain ⟨hany, hend, -⟩ := Commands.word_of_mem_vocabulary hmem
    have hisAny : (Token.ofWord known wordNo).isAny = false := beq_false_of_ne hany
    rw [htoken]
    exact {
      isEnd_eq := beq_false_of_ne hend
      isAny_iff := by simp [hisAny, hknows]
      free := by simp [hisAny]
      known := fun _ => ⟨hmem, rfl, hspelled⟩ }
  · rw [htoken]
    exact {
      isEnd_eq := rfl
      isAny_iff := by simpa [Token.isAny, Token.free] using hunknown
      free := fun _ => rfl
      known := fun hknown => by cases hknown }

/-- What a token stands for is labelled again as that token. -/
theorem classify_text : tokenizer.classify (tokenizer.classify word wordNo).text wordNo =
    tokenizer.classify word wordNo := by
  obtain ⟨known, hmem, -, -, htoken⟩ | ⟨-, htoken⟩ := classify_cases tokenizer word wordNo
  · rw [htoken]
    exact classify_of_mem hmem
  · rw [htoken]
    exact htoken

/-- The text of a word's token is a word within the limit too. -/
theorem classify_text_isWord (hword : Text.IsWord word.toList)
    (hlength : word.length ≤ Limits.wordLength) :
    Text.IsWord (tokenizer.classify word wordNo).text.toList ∧
      (tokenizer.classify word wordNo).text.length ≤ Limits.wordLength := by
  obtain ⟨known, hmem, -, -, htoken⟩ | ⟨-, htoken⟩ := classify_cases tokenizer word wordNo
  · rw [htoken]
    exact (Commands.word_of_mem_vocabulary hmem).2.2
  · rw [htoken]
    exact ⟨hword, hlength⟩

/-- The tokens of words are numbered by their places. -/
theorem labelled_wordNos :
    (tokenizer.labelled words).map Token.wordNo = List.range words.length := by
  apply List.ext_getElem
  · simp [length_labelled]
  · intro place _ _
    simp only [labelled, List.getElem_map, List.getElem_mapIdx, classify_wordNo,
      List.getElem_range]

/-- The closing marker is numbered by the number of words. -/
theorem closed_wordNos :
    (tokenizer.labelled words ++ [Token.closing words.length]).map Token.wordNo =
      List.range (words.length + 1) := by
  rw [List.map_append, labelled_wordNos, List.range_succ]
  rfl

theorem labelled_standsFor (tokenizer : Tokenizer) (words : List String) :
    List.Forall₂ tokenizer.StandsFor (tokenizer.labelled words) words := by
  rw [List.forall₂_iff_get]
  refine ⟨length_labelled, fun place _ _ => ?_⟩
  simp only [labelled, List.get_eq_getElem, List.getElem_mapIdx]
  exact classify_standsFor

theorem labelled_texts :
    tokenizer.labelled ((tokenizer.labelled words).map Token.text) = tokenizer.labelled words := by
  apply List.ext_getElem
  · simp [length_labelled]
  · intro place _ _
    simp only [labelled, List.getElem_mapIdx, List.getElem_map, classify_text]

/-- The stream of words within the limits has no defect. -/
theorem labelled_defect? :
    TokenStream.defect? ⟨tokenizer.labelled words ++ [.closing words.length]⟩ = none := by
  refine TokenStream.defect?_eq_none_iff.mpr ⟨rfl, fun token htoken => ?_, ?_⟩
  · obtain ⟨place, hplace, rfl⟩ := List.mem_iff_getElem.mp htoken
    have hstands := (List.forall₂_iff_get.mp (tokenizer.labelled_standsFor words)).2
    exact (hstands place hplace (length_labelled ▸ hplace)).isEnd_eq
  · rw [closed_wordNos]
    exact List.isChain_iff_pairwise.mpr List.pairwise_lt_range

/-- A word that is too long is refused, if no word before it is. -/
theorem scan_tooLong (tokenizer : Tokenizer) (wordNo : Nat) (rest : List String)
    (metrics : LexicalMetrics) (hfront : ∀ earlier ∈ front, earlier.length ≤ Limits.wordLength)
    (hword : Limits.wordLength < word.length) :
    (tokenizer.scan wordNo (front ++ word :: rest) metrics).1 =
      .error (.wordTooLong (wordNo + front.length) word.length Limits.wordLength) := by
  induction front generalizing wordNo metrics with
  | nil =>
      rw [List.nil_append, scan, if_pos hword]
      rfl
  | cons first front ih =>
      obtain ⟨hfirst, hfront⟩ := List.forall_mem_cons.mp hfront
      have hnumber : wordNo + 1 + front.length = wordNo + (first :: front).length := by
        rw [List.length_cons]
        omega
      rw [List.cons_append, scan, if_neg (Nat.not_lt.mpr hfirst)]
      dsimp only
      rw [ih _ _ hfront, hnumber]
      rfl

theorem exists_first_tooLong (h : ¬∀ word ∈ words, word.length ≤ Limits.wordLength) :
    ∃ front word rest, words = front ++ word :: rest ∧
      (∀ earlier ∈ front, earlier.length ≤ Limits.wordLength) ∧
      Limits.wordLength < word.length := by
  cases hfirst : words.find? fun word => decide (Limits.wordLength < word.length) with
  | none =>
      refine absurd (fun word hword => ?_) h
      simpa using List.find?_eq_none.mp hfirst word hword
  | some word =>
      obtain ⟨hword, front, rest, hwords, hfront⟩ := List.find?_eq_some_iff_append.mp hfirst
      exact ⟨front, word, rest, hwords, fun earlier h => by simpa using hfront earlier h,
        of_decide_eq_true hword⟩

theorem tokenizeText_tooMany (h : Limits.words < (Text.words text).length) :
    (tokenizer.tokenizeText text).1 =
      .error (.tooManyWords (Text.words text).length Limits.words) := by
  rw [tokenizeText]
  dsimp only
  rw [if_pos h]

theorem tokenizeText_tooLong (hcount : (Text.words text).length ≤ Limits.words)
    (hwords : Text.words text = front ++ word :: rest)
    (hfront : ∀ earlier ∈ front, earlier.length ≤ Limits.wordLength)
    (hword : Limits.wordLength < word.length) :
    (tokenizer.tokenizeText text).1 =
      .error (.wordTooLong front.length word.length Limits.wordLength) := by
  have hscan := tokenizer.scan_tooLong 0 rest tokenizer.metrics hfront hword
  rw [Nat.zero_add, ← hwords] at hscan
  rw [tokenizeText]
  dsimp only
  rw [if_neg (Nat.not_lt.mpr hcount), hscan]

/-- The texts of a stream's tokens, joined by single blanks, have the stream again. -/
theorem tokenizeText_texts (tokenizer : Tokenizer) (hcount : words.length ≤ Limits.words)
    (hwords : ∀ word ∈ words, Text.IsWord word.toList)
    (hlengths : ∀ word ∈ words, word.length ≤ Limits.wordLength) :
    (tokenizer.tokenizeText
        (" ".intercalate ((tokenizer.labelled words).map Token.text))).1 =
      .ok ⟨tokenizer.labelled words ++ [.closing words.length]⟩ := by
  have htexts : ∀ spoken ∈ (tokenizer.labelled words).map Token.text,
      Text.IsWord spoken.toList ∧ spoken.length ≤ Limits.wordLength := by
    intro spoken hspoken
    obtain ⟨token, htoken, rfl⟩ := List.mem_map.mp hspoken
    obtain ⟨place, hplace, rfl⟩ := List.mem_mapIdx.mp htoken
    have hmem := List.getElem_mem hplace
    exact classify_text_isWord (hwords _ hmem) (hlengths _ hmem)
  have hlength : ((tokenizer.labelled words).map Token.text).length = words.length := by
    rw [List.length_map, length_labelled]
  rw [tokenizeText_eq_ok_iff, Text.words_intercalate fun spoken h => (htexts spoken h).1, hlength,
    labelled_texts]
  exact ⟨hcount, fun spoken h => (htexts spoken h).2, rfl⟩

end Tokenizer

/-- Tokenizing is faithful and stable. A text within the limits has a stream without
defects, whose tokens are numbered by their places and stand for the words of the
text one to one; and the texts of these tokens, joined by single blanks, have the same
stream again. Any other text is refused: for having too many words, or else for the
first word that is too long. -/
theorem tokenizing_faithful_and_stable (tokenizer : Tokenizer) (text : String)
    (metrics : LexicalMetrics) (journal later : Log.Journal) :
    let words := Text.words text
    let reply := ((tokenizer.tokenize text).run journal).1.1
    (words.length ≤ Limits.words ∧ (∀ word ∈ words, word.length ≤ Limits.wordLength) ∧
      ∃ spoken : List Token,
        reply = .ok ⟨spoken ++ [.closing words.length]⟩ ∧
        TokenStream.defect? ⟨spoken ++ [.closing words.length]⟩ = none ∧
        (spoken ++ [Token.closing words.length]).map Token.wordNo =
          List.range (words.length + 1) ∧
        List.Forall₂ tokenizer.StandsFor spoken words ∧
        ((({ tokenizer with metrics } : Tokenizer).tokenize
          (" ".intercalate (spoken.map Token.text))).run later).1.1 = reply) ∨
    (Limits.words < words.length ∧
      reply = .error (.tooManyWords words.length Limits.words)) ∨
    (words.length ≤ Limits.words ∧
      ∃ front word rest, words = front ++ word :: rest ∧
        (∀ earlier ∈ front, earlier.length ≤ Limits.wordLength) ∧
        Limits.wordLength < word.length ∧
        reply = .error (.wordTooLong front.length word.length Limits.wordLength)) := by
  intro words reply
  have hreply : reply = (tokenizer.tokenizeText text).1 :=
    congrArg Prod.fst (tokenizer.tokenize_fst text journal)
  rw [hreply]
  by_cases hcount : words.length ≤ Limits.words
  · by_cases hlengths : ∀ word ∈ words, word.length ≤ Limits.wordLength
    · have hstream : (tokenizer.tokenizeText text).1 =
          .ok ⟨tokenizer.labelled words ++ [.closing words.length]⟩ :=
        Tokenizer.tokenizeText_eq_ok_iff.mpr ⟨hcount, hlengths, rfl⟩
      refine .inl ⟨hcount, hlengths, tokenizer.labelled words, hstream, Tokenizer.labelled_defect?,
        Tokenizer.closed_wordNos, tokenizer.labelled_standsFor words, ?_⟩
      have hwords : ∀ word ∈ words, Text.IsWord word.toList :=
        fun _ hword => Text.isWord_of_mem_words hword
      -- The counts have no part in what a word is labelled as.
      have hagain := Tokenizer.tokenizeText_texts { tokenizer with metrics } hcount hwords hlengths
      rw [Tokenizer.tokenize_fst]
      exact hagain.trans hstream.symm
    · obtain ⟨front, word, rest, hwords, hfront, hword⟩ :=
        Tokenizer.exists_first_tooLong hlengths
      exact .inr (.inr ⟨hcount, front, word, rest, hwords, hfront, hword,
        Tokenizer.tokenizeText_tooLong hcount hwords hfront hword⟩)
  · exact .inr (.inl ⟨Nat.not_le.mp hcount, Tokenizer.tokenizeText_tooMany (Nat.not_le.mp hcount)⟩)

end SpokenKeys
