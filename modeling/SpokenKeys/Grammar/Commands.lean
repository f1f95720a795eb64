import SpokenKeys.Grammar.Basic

/-!
The grammar of spoken commands, generated from the vocabulary tables. The order
of the productions matters: when several alternatives of a nonterminal derive
the same words, the one declared first is chosen.
-/

namespace SpokenKeys.Commands

def t (label : String) : Symbol := .terminal label

def n (rule : Rule) : Symbol := .rule rule

def close : Symbol := t Token.endLabel

def any : Symbol := t Token.anyLabel

/-- One production for each word of a table, which is its whole right-hand side. -/
def oneWord (lhs : Rule) (meaning : Meaning) (words : List String) : List Production :=
  words.map fun word => ⟨lhs, [t word], meaning⟩

/-- One production for each right-hand side. -/
def alternatives (lhs : Rule) (meaning : Meaning) (sides : List (List Symbol)) :
    List Production :=
  sides.map fun side => ⟨lhs, side, meaning⟩

/-- Entry points, filler words and the phrases that turn the session. -/
def utterances : List Production :=
  alternatives .input .input
      [[close], [n .sleepPhrase, close], [n .commands, close]] ++
    alternatives .tolerantInput .tolerantInput
      [[close], [n .junk, n .sleepPhrase, close], [n .junk, n .commands, close]] ++
    alternatives .junk .junk
      ([] :: Lexicon.junkWords.map fun word => [t word, n .junk]) ++
    alternatives .sleepPhrase .sleepPhrase
      [Lexicon.goToSleep.map t, Lexicon.startListening.map t]

/-- The kinds of commands, in the order of preference. -/
def kinds : List Rule := [
  .letter, .skyLetter, .number, .movement, .character, .editing, .held, .spelledWord,
  .sentence, .identifier, .phrase]

/-- Chains of commands, movements and counts. -/
def chains : List Production :=
  alternatives .commands .commands [[n .command], [n .command, n .commands]] ++
    alternatives .command .command (kinds.map fun kind => [n kind]) ++
    alternatives .movement .movement
      (Direction.all.map fun direction => [t direction.word, n .count]) ++
    alternatives .count .count [[], [n .group]]

def numbers : List Production :=
  alternatives .number .number
      ([.group, .thousands, .millions, .billions].map fun rule => [t Lexicon.number, n rule]) ++
    alternatives .group .group [
      [n .small],
      [n .tens],
      [n .tens, n .ones],
      [n .hundreds],
      [n .hundreds, n .small],
      [n .hundreds, n .tens],
      [n .hundreds, n .tens, n .ones]] ++
    oneWord .ones .smallNumber Lexicon.onesWords ++
    oneWord .small .smallNumber (Lexicon.smallNumbers.map Prod.fst) ++
    oneWord .tens .tens (Lexicon.tens.map Prod.fst) ++
    alternatives .hundreds .hundreds [[n .ones, t Lexicon.hundred]] ++
    scaled .thousands .thousand [.group] ++
    scaled .millions .million [.group, .thousands] ++
    scaled .billions .billion [.group, .thousands, .millions]
where
  /-- A group, a scale word, and nothing or one of the tails. -/
  scaled (lhs : Rule) (scale : Scale) (tails : List Rule) : List Production :=
    alternatives lhs (.scaled scale) <|
      [n .group, t scale.word] :: tails.map fun tail => [n .group, t scale.word, n tail]

/-- Letters, characters, editing keys and modifiers. -/
def keys : List Production :=
  alternatives .skyLetter .skyLetter [[t Lexicon.sky, n .letter]] ++
    oneWord .letter .letter Lexicon.letterWords ++
    alternatives .character .character (Lexicon.characters.map fun entry => entry.1.map t) ++
    alternatives .editing .editing (Lexicon.editing.map fun entry => [t entry.1, n .count]) ++
    alternatives .held .held (Modifier.spoken.map fun entry => [t entry.1, n .command])

def freeText : List Production :=
  alternatives .spelledWord .spelledWord [[t Lexicon.word, any]] ++
    alternatives .sentence .sentence [[t Lexicon.sentence, n .wordRun]] ++
    alternatives .identifier .identifier [[t Lexicon.variable, n .wordRun]] ++
    alternatives .phrase .phrase [[t Lexicon.phrase, n .wordRun]] ++
    alternatives .wordRun .wordRun [[n .rawWord], [n .rawWord, n .wordRun]] ++
    alternatives .rawWord .rawWord ([any] :: Lexicon.rawNumberWords.map fun word => [t word])

def productions : List Production :=
  utterances ++ chains ++ numbers ++ keys ++ freeText

def grammar : Grammar := .ofProductions productions

theorem table_eq : grammar.table = productions := by
  simp [grammar, Grammar.table, Grammar.ofProductions]

/-- A check of every production is one of the grammar's table. -/
theorem forall_table {passes : Production → Bool} (h : productions.all passes = true) :
    ∀ production ∈ grammar.table, passes production = true := by
  rw [table_eq]
  exact List.all_eq_true.mp h

def strictVocabulary : List String := grammar.vocabulary .strict

def tolerantVocabulary : List String := grammar.vocabulary .tolerant

def vocabulary : Entry → List String
  | .strict => strictVocabulary
  | .tolerant => tolerantVocabulary

theorem vocabulary_eq (entry : Entry) : vocabulary entry = grammar.vocabulary entry := by
  cases entry <;> rfl

end SpokenKeys.Commands
