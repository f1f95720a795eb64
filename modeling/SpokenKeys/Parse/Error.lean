import SpokenKeys.Chart.Basic
import SpokenKeys.Log.Code

/-!
Why an utterance is not parsed, in words and as an event code.
-/

namespace SpokenKeys

/-- Why an utterance is not parsed. -/
inductive ParseError where
  /-- The first token that no derivation goes on through. -/
  | unexpectedToken (token : Token)
  | emptyStream
  | tooLong (count max : Nat)
  | tooDeep (max : Nat)
  | internal (message : String)
deriving DecidableEq, Repr

namespace ParseError

def kindName : ParseError → String
  | .unexpectedToken _ => "UnexpectedToken"
  | .emptyStream => "EmptyTokenStream"
  | .tooLong _ _ => "UtteranceTooLong"
  | .tooDeep _ => "MaxDerivationDepth"
  | .internal _ => "InternalParserError"

def message : ParseError → String
  | .unexpectedToken token =>
      "Unexpected token `" ++ token.display ++ "' (word number " ++ toString token.wordNo ++ ")"
  | .emptyStream => "Empty token stream - no tokens to parse"
  | .tooLong count max => s!"Utterance too long: {count} tokens (maximum {max})"
  | .tooDeep max => s!"Maximum derivation depth {max} exceeded"
  | .internal message => s!"Internal parser error: {message}"

def code : ParseError → Log.Code
  | .unexpectedToken _ => .unexpectedToken
  | .emptyStream => .emptyTokenStream
  | .tooLong _ _ => .utteranceTooLong
  | .tooDeep _ => .maxDerivationDepth
  | .internal _ => .internalParserError

def token? : ParseError → Option Token
  | .unexpectedToken token => some token
  | _ => none

/-- Position of the offending word. -/
def wordNo? (error : ParseError) : Option Nat := error.token?.map Token.wordNo

def label? (error : ParseError) : Option String := error.token?.map Token.kind

/-- Whether the speaker can simply say something else. -/
def isRecoverable : ParseError → Bool
  | .internal _ | .tooDeep _ => false
  | _ => true

/-- What a failure of the chart means for an utterance. -/
def ofFailure (tokens : List Token) : Chart.Failure → ParseError
  | .rejected position =>
      match tokens[position]? with
      | some token => .unexpectedToken token
      | none => .internal s!"rejected at missing position {position}"
  | .tooLarge items => .internal s!"chart exceeded {items} items"
  | .tooDeep _ => .tooDeep Limits.derivationDepth
  | .inconsistent rule start stop =>
      .internal s!"no derivation of {rule.name} over {start}..{stop} despite acceptance"

end ParseError

end SpokenKeys
