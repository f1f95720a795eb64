import SpokenKeys.Action
import SpokenKeys.Lexicon
import SpokenKeys.Numeral
import SpokenKeys.Token.Stream

/-!
Saying actions aloud: which trees stand for a single command, and one way of
speaking each of them.
-/

namespace SpokenKeys.Action

def keyNames : List String :=
  Lexicon.characters.map Prod.snd ++ Lexicon.editing.map Prod.snd

/-- Whether an action may be repeated: a step of the cursor or an editing key. -/
def isRepeatable : Action → Bool
  | .move _ => true
  | .key name => (Lexicon.editing.map Prod.snd).contains name
  | _ => false

def isHold : Action → Bool
  | .hold _ _ => true
  | _ => false

/-- Whether an action is one word of a run of words. -/
def isWord : Action → Bool
  | .word _ => true
  | _ => false

/-- Whether a tree is what a single command stands for. -/
def isCommand : Action → Bool
  | .char value => value.isAlpha
  | .move _ | .text _ => true
  | .key name => keyNames.contains name
  | .times count body => count < 1000 && body.isRepeatable
  | .words items => !items.isEmpty && items.all isWord
  | .hold modifiers body => !modifiers.isEmpty && body.isCommand && !body.isHold
  | .chain _ | .word _ | .idle => false

/-- The first codeword of a letter in lower case. -/
def codeword (letter : Char) : String :=
  (Lexicon.letterWords.find? fun name => Lexicon.letter? name == some letter).getD ""

def keyWords (name : String) : List String :=
  match Lexicon.characters.find? fun entry => entry.2 == name with
  | some entry => entry.1
  | none => ((Lexicon.editing.find? fun entry => entry.2 == name).map fun entry => [entry.1]).getD []

def modifierWord (modifier : Modifier) : String :=
  ((Modifier.spoken.find? fun entry => entry.2 == modifier).map Prod.fst).getD ""

/-- One spoken word, before it has its place in an utterance. -/
inductive Spoken where
  /-- A word of the vocabulary. -/
  | known (word : String)
  /-- Free text. -/
  | free (spelling : String)
deriving DecidableEq, Repr

/-- The spelling of one word of a run of words. -/
def spelling? : Action → Option String
  | .word spelling => some spelling
  | _ => none

/-- One way of speaking a command. -/
def spoken : Action → List Spoken
  | .char value =>
      if value.isUpper then [.known Lexicon.sky, .known (codeword value.toLower)]
      else [.known (codeword value)]
  | .move direction => [.known direction.word]
  | .key name => (keyWords name).map .known
  | .times count body =>
      body.spoken ++ (Numeral.spell count.toNat).map Spoken.known
  | .text content => [.known Lexicon.word, .free content]
  | .words items => .known Lexicon.phrase :: (items.filterMap spelling?).map .free
  | .hold modifiers body => modifiers.map (Spoken.known ∘ modifierWord) ++ body.spoken
  | .chain _ | .word _ | .idle => []

/-- The stream with one more spoken word. -/
def say (stream : TokenStream) : Spoken → TokenStream
  | .known label => stream.pushWord label
  | .free spelling => stream.pushFree spelling

def streamOf (words : List Spoken) : TokenStream := (words.foldl say {}).close

/-- The utterance that says several commands one after the other. -/
def utterance (commands : List Action) : TokenStream := streamOf (commands.flatMap spoken)

end SpokenKeys.Action
