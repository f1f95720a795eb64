/-!
The vocabulary: every word the grammar knows and what it contributes. The
production table is generated from these tables, so a word added here is a word
added to the grammar.
-/

namespace SpokenKeys.Lexicon

/-- Number words from zero to nineteen, and the homophones of two and four. -/
def smallNumbers : List (String × UInt64) := [
  ("zero", 0), ("one", 1), ("two", 2), ("three", 3), ("four", 4), ("five", 5), ("six", 6),
  ("seven", 7), ("eight", 8), ("nine", 9), ("ten", 10), ("eleven", 11), ("twelve", 12),
  ("thirteen", 13), ("fourteen", 14), ("fifteen", 15), ("sixteen", 16), ("seventeen", 17),
  ("eighteen", 18), ("nineteen", 19), ("to", 2), ("for", 4)]

/-- Words for one to nine: they follow a tens word or stand before "hundred". -/
def onesWords : List String :=
  ["one", "two", "three", "four", "five", "six", "seven", "eight", "nine", "to", "for"]

/-- Words for the tens from twenty to ninety. -/
def tens : List (String × UInt64) := [
  ("twenty", 20), ("thirty", 30), ("forty", 40), ("fifty", 50), ("sixty", 60),
  ("seventy", 70), ("eighty", 80), ("ninety", 90)]

/-- Number words that a run of free text takes as they are spoken. -/
def rawNumberWords : List String := [
  "zero", "one", "two", "three", "four", "five", "six", "seven", "eight", "nine", "to", "for"]

/-- The word that multiplies the ones word before it. -/
def hundred : String := "hundred"

def thousand : String := "thousand"

def million : String := "million"

def billion : String := "billion"

def letterWords : List String := [
  "arch", "bravo", "charlie", "delta", "eco", "echo", "ergo", "fox", "golf", "hotel", "india",
  "julia", "kilo", "line", "mike", "november", "oscar", "papa", "queen", "romeo", "sierra",
  "tango", "uniform", "victor", "whiskey", "whisky", "xray", "expert", "yankee", "zulu"]

/-- Spoken names of characters, each with the key it stands for. -/
def characters : List (List String × String) := [
  (["act"], "Escape"),
  (["colon"], "colon"),
  (["semicolon"], "semicolon"),
  (["single", "quote"], "apostrophe"),
  (["double", "quote"], "quotedbl"),
  (["equal"], "equal"),
  (["space"], "space"),
  (["tab"], "Tab"),
  (["bang"], "exclam"),
  (["hash"], "numbersign"),
  (["dollar"], "dollar"),
  (["percent"], "percent"),
  (["carrot"], "caret"),
  (["ampersand"], "ampersand"),
  (["star"], "asterisk"),
  (["late"], "parenleft"),
  (["len"], "parenleft"),
  (["rate"], "parenright"),
  (["lack"], "curlleft"),
  (["left", "square"], "leftsquare"),
  (["minus"], "minus"),
  (["dash"], "minus"),
  (["underscore"], "underscore"),
  (["plus"], "plus"),
  (["backslash"], "backslash"),
  (["dot"], "period"),
  (["dit"], "period"),
  (["slash"], "slash"),
  (["question"], "question"),
  (["comma"], "comma")]

/-- Editing words, each with the key it stands for. -/
def editing : List (String × String) := [("slap", "Return"), ("scratch", "BackSpace")]

/-- Filler words that the tolerant entry point drops from the front. -/
def junkWords : List String := ["i", "the", "a", "and"]

/-- The word before a spoken number. -/
def number : String := "number"

/-- The word that puts the letter after it in upper case. -/
def sky : String := "sky"

/-- The word before a single word of free text. -/
def word : String := "word"

/-- The words before a run of free text. -/
def sentence : String := "sentence"

@[inherit_doc sentence]
def «variable» : String := "variable"

@[inherit_doc sentence]
def phrase : String := "phrase"

/-- The phrase that puts the session to sleep. -/
def goToSleep : List String := ["go", "to", "sleep"]

/-- The phrase that wakes the session. -/
def startListening : List String := ["start", "listening"]

def smallNumber? (word : String) : Option UInt64 := smallNumbers.lookup word

def tens? (word : String) : Option UInt64 := tens.lookup word

/-- Letter of a codeword: its first character, except that "expert" is x. -/
def letter? (word : String) : Option Char :=
  if letterWords.contains word then
    if word == "expert" then some 'x' else word.toList.head?
  else none

/-- Key of a character's spoken name, found by the first word of the name. -/
def character? (firstWord : String) : Option String :=
  (characters.find? fun entry => entry.1.head? == some firstWord).map Prod.snd

def editing? (word : String) : Option String := editing.lookup word

def isJunk (word : String) : Bool := junkWords.contains word

end SpokenKeys.Lexicon
