import SpokenKeys.Grammar.Commands
import SpokenKeys.Log.Journal
import SpokenKeys.Token.Stream

/-!
From the text of an utterance to tokens. Each word between blanks becomes one
token: a word of the entry point's vocabulary is labelled as itself and any
other word as free text. A text with too many words, or with a word that is too
long, has no tokens.
-/

namespace SpokenKeys

/-- Why a text has no tokens. -/
inductive LexicalError where
  | tooManyWords (count max : Nat)
  | wordTooLong (wordNo length max : Nat)
deriving DecidableEq, Repr

namespace LexicalError

def kindName : LexicalError → String
  | .tooManyWords _ _ => "TooManyWords"
  | .wordTooLong _ _ _ => "WordTooLong"

def message : LexicalError → String
  | .tooManyWords count max => s!"Too many words: {count} (max {max})"
  | .wordTooLong wordNo length max =>
      s!"Word too long: {length} characters at word {wordNo} (max {max})"

def code : LexicalError → Log.Code
  | .tooManyWords _ _ => .tooManyWords
  | .wordTooLong _ _ _ => .wordTooLong

def wordNo? : LexicalError → Option Nat
  | .tooManyWords _ _ => none
  | .wordTooLong wordNo _ _ => some wordNo

def event : LexicalError → Log.Event
  | .tooManyWords count max =>
      (Log.Event.error .tooManyWords "Utterance exceeds word limit").withDetails
        [("count", toString count), ("max", toString max)]
  | .wordTooLong wordNo length _ =>
      ((Log.Event.error .wordTooLong "Word exceeds length limit").atWord wordNo).withDetail
        "length" (toString length)

end LexicalError

/-- Counts over all that a tokenizer has seen. -/
structure LexicalMetrics where
  utterances : Nat := 0
  totalWords : Nat := 0
  vocabularyWords : Nat := 0
  freeWords : Nat := 0
  longestWord : Nat := 0
deriving DecidableEq, Repr, Inhabited

/-- The counts after one more word. -/
def LexicalMetrics.record (metrics : LexicalMetrics) (token : Token) (length : Nat) :
    LexicalMetrics :=
  { metrics with
    totalWords := metrics.totalWords + 1
    vocabularyWords := metrics.vocabularyWords + if token.isAny then 0 else 1
    freeWords := metrics.freeWords + if token.isAny then 1 else 0
    longestWord := max metrics.longestWord length }

/-- A tokenizer for one entry point, with its counts. -/
structure Tokenizer where
  entry : Entry
  preferences : LexicalPreferences
  metrics : LexicalMetrics := {}
deriving Repr, Inhabited

namespace Tokenizer

def classify (tokenizer : Tokenizer) (word : String) (wordNo : Nat) : Token :=
  let vocabulary := Commands.vocabulary tokenizer.entry
  if vocabulary.contains word then .ofWord word wordNo
  else
    let lowered := Text.lowercase word
    if tokenizer.preferences.lowercases && vocabulary.contains lowered then
      .ofWord lowered wordNo
    else .free word wordNo

/-- The tokens of words that are numbered from a position on, and the counts
after them. Words before one that is too long are counted all the same. -/
def scan (tokenizer : Tokenizer) :
    Nat → List String → LexicalMetrics → Except LexicalError (List Token) × LexicalMetrics
  | _, [], metrics => (.ok [], metrics)
  | wordNo, word :: rest, metrics =>
      if Limits.wordLength < word.length then
        (.error (.wordTooLong wordNo word.length Limits.wordLength), metrics)
      else
        let token := tokenizer.classify word wordNo
        let (tokens, metrics) := scan tokenizer (wordNo + 1) rest (metrics.record token word.length)
        (tokens.map (token :: ·), metrics)

/-- The stream of a text, without any logging. -/
def tokenizeText (tokenizer : Tokenizer) (text : String) :
    Except LexicalError TokenStream × Tokenizer :=
  let words := Text.words text
  if Limits.words < words.length then
    (.error (.tooManyWords words.length Limits.words), tokenizer)
  else
    let (tokens, metrics) := tokenizer.scan 0 words tokenizer.metrics
    match tokens with
    | .error error => (.error error, { tokenizer with metrics })
    | .ok tokens =>
        (.ok ⟨tokens ++ [.closing words.length]⟩,
          { tokenizer with metrics := { metrics with utterances := metrics.utterances + 1 } })

def tokenize (tokenizer : Tokenizer) (text : String) :
    Log.Logging (Except LexicalError TokenStream × Tokenizer) := do
  let (result, tokenizer) := tokenizer.tokenizeText text
  match result with
  | .error error => Log.emit error.event
  | .ok stream =>
      if tokenizer.preferences.logsStatistics then
        Log.emitDebug "Word classification" [
          ("words", toString (stream.length - 1)),
          ("free_words", toString (stream.tokens.countP Token.isAny)),
          ("entry", tokenizer.entry.name)]
      Log.emit <| (Log.Event.info .tokenized "Utterance tokenized").withDetail
        "words" (toString (stream.length - 1))
  return (result, tokenizer)

end Tokenizer

/-- The stream of a text for an entry point, with the environment's preferences. -/
def tokenizeUtterance (text : String) (entry : Entry) :
    Log.Logging (Except LexicalError TokenStream) := do
  let preferences := LexicalPreferences.ofEnvironment (← get).environment
  let (result, _) ← ({ entry, preferences : Tokenizer }).tokenize text
  return result

end SpokenKeys
