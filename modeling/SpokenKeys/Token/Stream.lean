import SpokenKeys.Token

/-!
Token streams: the tokens of one utterance with the marker that closes it. A
stream may be built by hand, so its shape is checked and not assumed.
-/

namespace SpokenKeys

/-- The tokens of one utterance. -/
structure TokenStream where
  tokens : List Token := []
deriving DecidableEq, Repr, Inhabited

namespace TokenStream

/-- A defect in the shape of a stream. -/
inductive Defect where
  | empty
  | missingEnd
  | multipleEnd (count : Nat)
  | wordOrder (wordNo : Nat)
deriving DecidableEq, Repr

def Defect.message : Defect → String
  | .empty => "Token stream is empty"
  | .missingEnd => s!"Token stream does not end with {Token.endLabel}"
  | .multipleEnd count => s!"Token stream contains {count} {Token.endLabel} markers"
  | .wordOrder wordNo => s!"Word numbers out of order at word {wordNo}"

/-- Number of tokens, closing markers included. -/
def length (stream : TokenStream) : Nat := stream.tokens.length

def wordCount (stream : TokenStream) : Nat := stream.tokens.countP fun token => !token.isEnd

def endCount (stream : TokenStream) : Nat := stream.tokens.countP Token.isEnd

def hasEnd (stream : TokenStream) : Bool :=
  match stream.tokens.getLast? with
  | some token => token.isEnd
  | none => false

/-- The tokens as displayed, one blank between them. -/
def display (stream : TokenStream) : String :=
  " ".intercalate (stream.tokens.map Token.display)

/-- The first word number that does not exceed the one before it. -/
def firstDisorder? : List Token → Option Nat
  | first :: second :: rest =>
      if second.wordNo ≤ first.wordNo then some second.wordNo
      else firstDisorder? (second :: rest)
  | _ => none

/-- The first defect of a stream. A stream without one ends in its only closing
marker and its word numbers ascend. -/
def defect? (stream : TokenStream) : Option Defect :=
  if stream.tokens.isEmpty then some .empty
  else if !stream.hasEnd then some .missingEnd
  else if 1 < stream.endCount then some (.multipleEnd stream.endCount)
  else (firstDisorder? stream.tokens).map .wordOrder

/-- The stream with one more vocabulary word, numbered by its place. -/
def pushWord (stream : TokenStream) (word : String) : TokenStream :=
  ⟨stream.tokens ++ [.ofWord word stream.length]⟩

/-- The stream with one more free-text word, numbered by its place. -/
def pushFree (stream : TokenStream) (spelling : String) : TokenStream :=
  ⟨stream.tokens ++ [.free spelling stream.length]⟩

def pushWords (stream : TokenStream) (words : List String) : TokenStream :=
  words.foldl pushWord stream

/-- The stream with its closing marker. -/
def close (stream : TokenStream) : TokenStream :=
  ⟨stream.tokens ++ [.closing stream.length]⟩

end TokenStream

end SpokenKeys
