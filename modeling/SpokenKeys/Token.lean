import SpokenKeys.Json.Basic

/-!
Tokens: the recognised words of an utterance, labelled for the grammar. A word
of the vocabulary is its own label; every other word is labelled as free text
and keeps its spelling beside the label.
-/

namespace SpokenKeys

/-- One recognised word, or the marker that closes an utterance. -/
structure Token where
  /-- The label that terminals of the grammar are compared with. -/
  kind : String
  /-- Position of the word in its utterance, from zero. -/
  wordNo : Nat
  /-- The spelling, for a token whose label is not the word itself. -/
  extra : Option String := none
deriving DecidableEq, Repr, Inhabited

namespace Token

/-- Label of the marker that closes every utterance. -/
def endLabel : String := "END"

/-- Label of a free-text word. -/
def anyLabel : String := "ANY"

def ofWord (word : String) (wordNo : Nat) : Token := ⟨word, wordNo, none⟩

def free (spelling : String) (wordNo : Nat) : Token := ⟨anyLabel, wordNo, some spelling⟩

def closing (wordNo : Nat) : Token := ofWord endLabel wordNo

def isEnd (token : Token) : Bool := token.kind == endLabel

def isAny (token : Token) : Bool := token.kind == anyLabel

/-- Whether the token satisfies a terminal of the grammar. -/
def matchesLabel (token : Token) (label : String) : Bool := token.kind == label

/-- The word as spoken. -/
def text (token : Token) : String := token.extra.getD token.kind

/-- The label, with the spelling in parentheses if there is one. -/
def display (token : Token) : String :=
  match token.extra with
  | some spelling => s!"{token.kind}({spelling})"
  | none => token.kind

/-- The token as a document; the spelling is left out if there is none. -/
def toJson (token : Token) : Json :=
  .object <| [("kind", .text token.kind), ("word_no", .nat token.wordNo)] ++
    match token.extra with
    | some spelling => [("extra", .text spelling)]
    | none => []

def ofJson? (document : Json) : Option Token := do
  match ← document.record? ["kind", "word_no", "extra"] with
  | [kind, wordNo, extra] =>
      let kind ← (← kind).text?
      let wordNo ← (← wordNo).word?
      match extra with
      | none | some .null => some ⟨kind, wordNo, none⟩
      | some spelling => some ⟨kind, wordNo, some (← spelling.text?)⟩
  | _ => none

end Token

end SpokenKeys
