import SpokenKeys.Proofs.FaithfulTokens
import SpokenKeys.Proofs.NumberValues
import SpokenKeys.Proofs.TaggedEvents

/-!
What the steps of processing an utterance tell. A parser tells everything within the
utterance it counts, so all of it carries the number of the utterance; a tokenizer tells
nothing that is tagged. A text that is a number's digits is free text to every entry
point, so no utterance of it is accepted.
-/

namespace SpokenKeys

open Log (Context Event Journal Logging Tells)

namespace Parser

variable {context : Context} {good : Event → Prop}

/-- Notes are passed on as they are tagged. -/
theorem relayAll_tells (parser : Parser) (notes : List Note)
    (hgood : ∀ (journal : Journal) (event : Event), journal.context = context →
      good (journal.tag event)) : Tells context good (parser.relayAll notes) := by
  induction notes generalizing parser with
  | nil => exact .pure _
  | cons note rest ih =>
      unfold relayAll
      rw [List.foldlM_cons]
      refine .bind ?_ fun parser => ih parser
      cases note with
      | step event =>
          rw [relay]
          split
          · exact .bind (.emit fun journal => hgood journal event) fun _ => .pure _
          · exact .pure _
      | event event => exact .bind (.emit fun journal => hgood journal event) fun _ => .pure _

theorem parseCounted_tells (parser : Parser) (tokens : List Token)
    (hgood : ∀ (journal : Journal) (event : Event), journal.context = context →
      good (journal.tag event)) : Tells context good (parser.parseCounted tokens) := by
  have hemit (event : Event) : Tells context good (Log.emit event) :=
    .emit fun journal => hgood journal event
  unfold parseCounted
  dsimp only
  refine .bind (relayAll_tells parser _ hgood) fun parser => ?_
  split
  · exact .bind (hemit _) fun _ => .pure _
  · split
    · exact .bind (hemit _) fun _ => .bind (hemit _) fun _ => .pure _
    · exact .bind (hemit _) fun _ => .pure _

/-- All that a parser tells about an utterance is tagged with its number. -/
theorem parse_tells (parser : Parser) (tokens : List Token) (houtside : context.utterance? = none)
    (htags : context.preferences.tagsUtterances = true) :
    Tells context (fun event =>
      event.utteranceTag? = some (toString (parser.stats.utterances + 1)))
      (parser.parse tokens) := by
  unfold parse
  refine .withUtterance houtside (parseCounted_tells _ tokens ?_)
    fun dropped => Journal.utteranceTag?_limitWarning _ dropped
  intro journal event hjournal
  have hutterance : journal.utterance? =
      some ⟨parser.stats.utterances + 1, parser.entry.name⟩ := congrArg Context.utterance? hjournal
  have htagging : journal.preferences.tagsUtterances = true := by
    have hsame : journal.preferences = context.preferences := by
      have henvironment : journal.environment = context.environment :=
        congrArg Context.environment hjournal
      have hpreferences : journal.preferences? = context.preferences? :=
        congrArg Context.preferences? hjournal
      rw [Journal.preferences, Context.preferences, henvironment, hpreferences]
    rw [hsame, htags]
  exact Journal.utteranceTag?_tag hutterance htagging event

end Parser

/-- What a tokenizer tells outside of any utterance has no tag. -/
theorem Tokenizer.tokenize_tells {context : Context} (tokenizer : Tokenizer) (text : String)
    (houtside : context.utterance? = none) :
    Tells context (fun event => event.utteranceTag? = none) (tokenizer.tokenize text) := by
  have htag (event : Event) (hevent : event.utteranceTag? = none) (journal : Journal)
      (hjournal : journal.context = context) : (journal.tag event).utteranceTag? = none := by
    have hnone : journal.utterance? = none := by
      rw [← houtside, ← hjournal]
      rfl
    rw [Journal.tag_of_outside hnone, hevent]
  have hlast (stream : TokenStream) (result : Except LexicalError TokenStream × Tokenizer) :
      Tells context (fun event => event.utteranceTag? = none) (do
        Log.emit <| (Log.Event.info .tokenized "Utterance tokenized").withDetail
          "words" (toString (stream.length - 1))
        return result) :=
    .bind (.emit (htag _ (by simp [Event.info]))) fun _ => .pure _
  unfold tokenize
  dsimp only
  generalize tokenizer.tokenizeText text = tokenized
  split
  next error _ =>
    refine .bind (.emit (htag _ ?_)) fun _ => .pure _
    cases error <;> simp [LexicalError.event, Event.error]
  next stream _ =>
    split
    · refine .bind (.emitDebug (htag _ ?_)) fun _ => hlast stream _
      simp [Event.debug]
    · exact hlast stream _

/-- The tokenizer that the settings of an environment make for an entry point. -/
def Tokenizer.ofEnvironment (entry : Entry) (environment : Environment) : Tokenizer where
  entry
  preferences := .ofEnvironment environment

theorem tokenizeUtterance_tells {context : Context} (text : String) (entry : Entry)
    (houtside : context.utterance? = none) :
    Tells context (fun event => event.utteranceTag? = none) (tokenizeUtterance text entry) := by
  refine .read (fun journal => Tokenizer.ofEnvironment entry journal.environment)
    (fun tokenizer => do
      let result ← tokenizer.tokenize text
      return result.1) (fun _ _ => rfl) fun tokenizer => ?_
  exact .bind (tokenizer.tokenize_tells text houtside) fun _ => .pure _

theorem tokenizeUtterance_fst (text : String) (entry : Entry) (journal : Journal) :
    ((tokenizeUtterance text entry).run journal).1 =
      ((Tokenizer.ofEnvironment entry journal.environment).tokenizeText text).1 := by
  rw [← Tokenizer.tokenize_fst _ text journal]
  rfl

namespace Text

theorem lower_of_isDigit {c : Char} (h : c.isDigit = true) : lower c = [c] := by
  obtain ⟨hlow, hhigh⟩ := Char.isDigit_iff_toNat.mp h
  have hsmall : c.toNat ≤ 57 := hhigh
  have hlower : ¬(c.val ≥ 'A'.val ∧ c.val ≤ 'Z'.val) := by
    rintro ⟨hupper, -⟩
    have hlarge : 65 ≤ c.toNat := hupper
    omega
  have htoLower : c.toLower = c := dif_neg hlower
  rw [lower, if_pos (by omega), htoLower]

/-- Digits are their own lower-case form. -/
theorem lowercase_of_digits {word : String} (h : ∀ c ∈ word.toList, c.isDigit = true) :
    lowercase word = word := by
  have hchars : ∀ chars : List Char, (∀ c ∈ chars, c.isDigit = true) →
      chars.flatMap lower = chars := by
    intro chars hchars
    induction chars with
    | nil => rfl
    | cons c rest ih =>
        obtain ⟨hc, hrest⟩ := List.forall_mem_cons.mp hchars
        rw [List.flatMap_cons, lower_of_isDigit hc, ih hrest, List.singleton_append]
  rw [lowercase, hchars _ h, String.ofList_toList]

theorem isBlank_of_isDigit {c : Char} (h : c.isDigit = true) : isBlank c = false := by
  obtain ⟨hlow, hhigh⟩ := Char.isDigit_iff_toNat.mp h
  have hlarge : 48 ≤ c.toNat := hlow
  have hsmall : c.toNat ≤ 57 := hhigh
  unfold isBlank
  dsimp only
  simp only [Bool.or_eq_false_iff, Bool.and_eq_false_iff, decide_eq_false_iff_not,
    beq_eq_false_iff_ne]
  omega

end Text

namespace Commands

/-- Whether a symbol, if it is a terminal, is spelled without digits. -/
def hasNoDigit : Symbol → Bool
  | .terminal label => label.toList.all fun c => !c.isDigit
  | .rule _ => true

theorem hasNoDigit_of_mem : ∀ production ∈ grammar.table,
    production.rhs.all hasNoDigit = true :=
  forall_table (by decide +kernel)

end Commands

namespace Numeral

variable {size : Nat} {entry : Entry}

theorem isDigit_of_mem {c : Char} (h : c ∈ (toString size).toList) : c.isDigit = true := by
  rw [Nat.toString_eq_ofList_toDigits, String.toList_ofList] at h
  exact Nat.isDigit_of_mem_toDigits (by decide) (by decide) h

theorem isWord_toString (size : Nat) : Text.IsWord (toString size).toList := by
  refine ⟨?_, fun c hc => Text.isBlank_of_isDigit (isDigit_of_mem hc)⟩
  rw [Nat.toString_eq_ofList_toDigits, String.toList_ofList]
  exact Nat.toDigits_ne_nil

/-- Numbers are in the vocabulary by their words only. -/
theorem not_mem_vocabulary (size : Nat) (entry : Entry) :
    toString size ∉ Commands.vocabulary entry := by
  intro hmem
  obtain ⟨⟨production, hproduction, hterminal⟩, -⟩ := Commands.terminal_of_mem_vocabulary hmem
  have hside := List.all_eq_true.mp (Commands.hasNoDigit_of_mem production hproduction) _ hterminal
  obtain ⟨c, hc⟩ := List.exists_mem_of_ne_nil _ (isWord_toString size).1
  have hnodigit := List.all_eq_true.mp hside c hc
  rw [isDigit_of_mem hc] at hnodigit
  cases hnodigit

theorem classify_toString (tokenizer : Tokenizer) (size wordNo : Nat) :
    tokenizer.classify (toString size) wordNo = .free (toString size) wordNo := by
  have hlower : Text.lowercase (toString size) = toString size :=
    Text.lowercase_of_digits fun c hc => isDigit_of_mem hc
  rcases tokenizer.classify_cases (toString size) wordNo with
    ⟨-, -, hknows, -⟩ | ⟨-, hfree⟩
  · rcases hknows with hmem | ⟨-, hmem⟩
    · exact absurd hmem (not_mem_vocabulary size _)
    · rw [hlower] at hmem
      exact absurd hmem (not_mem_vocabulary size _)
  · exact hfree

/-- A text of digits is a free word and nothing else. -/
theorem kinds_of_tokenizeText {tokenizer : Tokenizer} {stream : TokenStream}
    (h : (tokenizer.tokenizeText (toString size)).1 = .ok stream) :
    stream.tokens.map Token.kind = [Token.anyLabel, Token.endLabel] := by
  have hwords : Text.words (toString size) = [toString size] := by
    have hword : ∀ word ∈ [toString size], Text.IsWord word.toList := by
      simpa using isWord_toString size
    have hsingle := Text.words_intercalate hword
    rwa [String.intercalate_singleton] at hsingle
  obtain ⟨-, -, htokens⟩ := Tokenizer.tokenizeText_eq_ok_iff.mp h
  rw [htokens, hwords, Tokenizer.labelled, List.mapIdx_singleton, classify_toString]
  rfl

/-- No utterance of digits is accepted. -/
theorem not_accepted {parser : Parser} {tokens : List Token} {outcome : ParseOutcome}
    (hkinds : tokens.map Token.kind = [Token.anyLabel, Token.endLabel]) :
    (parser.heard tokens).1 ≠ .ok outcome := by
  intro haccepted
  obtain ⟨verdict, hfits, -⟩ := Parser.exists_verdict_of_heard haccepted
  have hcore : parser.entry.core [Token.anyLabel, Token.endLabel] =
      [Token.anyLabel, Token.endLabel] := by
    cases parser.entry <;> decide
  rw [hkinds, hcore] at hfits
  cases verdict with
  | silence =>
      have hsame : [Token.anyLabel, Token.endLabel] = [Token.endLabel] := hfits
      exact absurd hsame (by decide)
  | turn session =>
      have hfirst : ∀ phrase ∈ [Lexicon.goToSleep, Lexicon.startListening],
          [Token.anyLabel, Token.endLabel] ≠ phrase ++ [Token.endLabel] := by
        decide
      cases session with
      | asleep => exact absurd hfits (hfirst _ (by decide))
      | awake => exact absurd hfits (hfirst _ (by decide))
  | chain first rest =>
      obtain ⟨label, hlabel, hhead⟩ := hfits
      obtain rfl := Option.some.inj hhead
      exact absurd hlabel (by decide +kernel)

end Numeral

end SpokenKeys
