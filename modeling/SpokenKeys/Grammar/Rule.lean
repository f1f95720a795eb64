/-!
The nonterminals of the command grammar. Each has two names: the one used in
productions and answers, and the one used when a chart describes itself.
-/

namespace SpokenKeys

/-- A nonterminal of the grammar. -/
inductive Rule where
  /-- One utterance. -/
  | input
  /-- One utterance after any filler words. -/
  | tolerantInput
  /-- A run of filler words. -/
  | junk
  /-- The sleep phrase or the wake phrase. -/
  | sleepPhrase
  /-- One or more commands. -/
  | commands
  /-- One command. -/
  | command
  /-- A direction and how often. -/
  | movement
  /-- A number of times, which may stay unspoken. -/
  | count
  /-- A number that is typed. -/
  | number
  /-- A number below one thousand. -/
  | group
  /-- One to nine. -/
  | ones
  /-- Zero to nineteen. -/
  | small
  /-- Twenty to ninety, by tens. -/
  | tens
  /-- One hundred to nine hundred, by hundreds. -/
  | hundreds
  /-- A number with thousands. -/
  | thousands
  /-- A number with millions. -/
  | millions
  /-- A number with billions. -/
  | billions
  /-- A letter in upper case. -/
  | skyLetter
  /-- A letter. -/
  | letter
  /-- A character by its name. -/
  | character
  /-- An editing key and how often. -/
  | editing
  /-- A command while a modifier is held. -/
  | held
  /-- A single word of free text. -/
  | spelledWord
  /-- Free text with its first word capitalised. -/
  | sentence
  /-- A name, its first word capitalised. -/
  | identifier
  /-- Free text. -/
  | phrase
  /-- One or more words of free text. -/
  | wordRun
  /-- A word of free text. -/
  | rawWord
deriving DecidableEq, Repr, Inhabited

namespace Rule

/-- Every nonterminal, in the order that reports list them. -/
def all : List Rule := [
  .input, .tolerantInput, .junk, .sleepPhrase, .commands, .command, .movement, .count, .number,
  .group, .ones, .small, .tens, .hundreds, .thousands, .millions, .billions, .skyLetter,
  .letter, .character, .editing, .held, .spelledWord, .sentence, .identifier, .phrase,
  .wordRun, .rawWord]

/-- Place of a nonterminal in the list of all. -/
def index (rule : Rule) : Nat := rule.ctorIdx

def name : Rule → String
  | .input => "single_input"
  | .tolerantInput => "single_input_discard_junk"
  | .junk => "junk_tokens"
  | .sleepPhrase => "sleep_commands"
  | .commands => "chained_commands"
  | .command => "single_command"
  | .movement => "movement"
  | .count => "repeat"
  | .number => "number_rule"
  | .group => "number_set"
  | .ones => "_ones"
  | .small => "_firstnumbers"
  | .tens => "_tens"
  | .hundreds => "_hundreds"
  | .thousands => "thousand_number_set"
  | .millions => "million_number_set"
  | .billions => "billion_number_set"
  | .skyLetter => "sky_letter"
  | .letter => "letter"
  | .character => "character"
  | .editing => "editing"
  | .held => "modifiers"
  | .spelledWord => "english"
  | .sentence => "word_sentence"
  | .identifier => "word_variable"
  | .phrase => "word_phrase"
  | .wordRun => "word_repeat"
  | .rawWord => "raw_word"

/-- The title of a nonterminal in the description of a chart. -/
def title : Rule → String
  | .input => "SingleInput"
  | .tolerantInput => "SingleInputDiscardJunk"
  | .junk => "JunkTokens"
  | .sleepPhrase => "SleepCommands"
  | .commands => "ChainedCommands"
  | .command => "SingleCommand"
  | .movement => "Movement"
  | .count => "Repeat"
  | .number => "NumberRule"
  | .group => "NumberSet"
  | .ones => "Ones"
  | .small => "FirstNumbers"
  | .tens => "Tens"
  | .hundreds => "Hundreds"
  | .thousands => "ThousandNumberSet"
  | .millions => "MillionNumberSet"
  | .billions => "BillionNumberSet"
  | .skyLetter => "SkyLetter"
  | .letter => "Letter"
  | .character => "Character"
  | .editing => "Editing"
  | .held => "Modifiers"
  | .spelledWord => "English"
  | .sentence => "WordSentence"
  | .identifier => "WordVariable"
  | .phrase => "WordPhrase"
  | .wordRun => "WordRepeat"
  | .rawWord => "RawWord"

def ofName? (name : String) : Option Rule := all.find? fun rule => rule.name == name

theorem mem_all (rule : Rule) : rule ∈ all := by cases rule <;> decide

theorem all_getElem?_index (rule : Rule) : all[rule.index]? = some rule := by cases rule <;> rfl

end Rule

/-- A start symbol that utterances are parsed against. -/
inductive Entry where
  /-- The utterance is exactly one input. -/
  | strict
  /-- Filler words before the input are dropped. -/
  | tolerant
deriving DecidableEq, Repr, Inhabited

namespace Entry

/-- Every entry point. -/
def all : List Entry := [.strict, .tolerant]

/-- The nonterminal an entry point starts from. -/
def rule : Entry → Rule
  | .strict => .input
  | .tolerant => .tolerantInput

def name (entry : Entry) : String := entry.rule.name

/-- The entry point that tolerates filler words, if that is wanted. -/
def ofTolerance (dropsJunk : Bool) : Entry := if dropsJunk then .tolerant else .strict

end Entry

end SpokenKeys
