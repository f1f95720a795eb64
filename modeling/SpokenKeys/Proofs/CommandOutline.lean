import SpokenKeys.Grammar.Commands
import SpokenKeys.Proofs.Extraction

/-!
The outline of the command grammar: its phrases by their first labels and by the
labels that make them longer. The grammar fits it, so no utterance can be said
to mean two things.
-/

namespace SpokenKeys.Commands

def groupFirst : List String := Lexicon.smallNumbers.map Prod.fst ++ Lexicon.tens.map Prod.fst

def characterFirst : List String := Lexicon.characters.filterMap fun entry => entry.1.head?

def commandFirst : List String :=
  Lexicon.letterWords ++ [Lexicon.sky, Lexicon.number] ++ Direction.all.map Direction.word ++
    characterFirst ++ Lexicon.editing.map Prod.fst ++ Modifier.spoken.map Prod.fst ++
    [Lexicon.word, Lexicon.sentence, Lexicon.variable, Lexicon.phrase]

/-- Words that an utterance begins with, its filler words apart. -/
def inputFirst : List String := Token.endLabel :: "go" :: "start" :: commandFirst

/-- Labels of words that free text takes. -/
def rawFirst : List String := Token.anyLabel :: Lexicon.rawNumberWords

def groupMore : List String := Lexicon.hundred :: groupFirst

def numberMore : List String :=
  Lexicon.thousand :: Lexicon.million :: Lexicon.billion :: groupMore

def commandMore : List String := "square" :: Token.anyLabel :: numberMore

/-- How short the phrases of every nonterminal can be, what they begin with and
what they go on with. -/
def outline : Outline where
  shortest
    | .junk | .count => 0
    | .sleepPhrase | .number | .hundreds | .thousands | .millions | .billions | .skyLetter
    | .held | .spelledWord | .sentence | .identifier | .phrase => 2
    | _ => 1
  first
    | .input => inputFirst
    | .tolerantInput => Token.endLabel :: Lexicon.junkWords ++ inputFirst.tail
    | .junk => Lexicon.junkWords
    | .sleepPhrase => ["go", "start"]
    | .commands | .command => commandFirst
    | .movement => Direction.all.map Direction.word
    | .count | .group | .thousands | .millions | .billions => groupFirst
    | .number => [Lexicon.number]
    | .ones | .hundreds => Lexicon.onesWords
    | .small => Lexicon.smallNumbers.map Prod.fst
    | .tens => Lexicon.tens.map Prod.fst
    | .skyLetter => [Lexicon.sky]
    | .letter => Lexicon.letterWords
    | .character => characterFirst
    | .editing => Lexicon.editing.map Prod.fst
    | .held => Modifier.spoken.map Prod.fst
    | .spelledWord => [Lexicon.word]
    | .sentence => [Lexicon.sentence]
    | .identifier => [Lexicon.variable]
    | .phrase => [Lexicon.phrase]
    | .wordRun | .rawWord => rawFirst
  more
    | .junk => Lexicon.junkWords
    | .commands => commandMore ++ commandFirst
    | .command | .held => commandMore
    | .movement | .editing | .count | .group | .thousands => groupMore
    | .millions => Lexicon.thousand :: groupMore
    | .billions => Lexicon.thousand :: Lexicon.million :: groupMore
    | .number => numberMore
    | .sentence | .identifier | .phrase | .wordRun => rawFirst
    | _ => []

-- The table is longer than the default recursion depth.
set_option maxRecDepth 20000 in
/-- Some alternatives differ only after a whole number, hence the levels. -/
theorem outline_check : outline.check productions 12 = true := by decide +kernel

theorem fits : outline.Fits grammar.table := by
  rw [table_eq]
  exact Outline.fits_of_check outline_check

def rank : Rule → Nat
  | .group | .movement | .editing | .wordRun => 1
  | .count | .held => 2
  | .command | .input | .tolerantInput => 3
  | .commands => 4
  | _ => 0

theorem rank_le (rule : Rule) : rank rule ≤ 4 := by cases rule <;> decide

theorem ranks_fall : ∀ production ∈ grammar.table,
    Chart.ranksFall outline rank production = true :=
  forall_table (by decide)

/-- A nonterminal has a production with nonterminals of less height only. -/
def height : Rule → Nat
  | .ones | .small | .tens | .letter | .character | .sleepPhrase | .input | .tolerantInput | .junk
  | .count | .spelledWord | .rawWord => 0
  | .group | .hundreds | .skyLetter | .command | .movement | .editing | .wordRun => 1
  | .commands | .thousands | .millions | .billions | .number | .held | .sentence | .identifier
  | .phrase => 2

theorem productive : Chart.Productive grammar := by
  refine Chart.productive_of_heights height ?_
  rw [table_eq]
  decide

end SpokenKeys.Commands
