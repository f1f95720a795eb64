/-!
Event codes and what is known about them. Every code that the library logs is
declared once and registered once; a code that is not registered has the
metadata of an unknown one.
-/

namespace SpokenKeys.Log

/-- A code that an event carries. -/
structure Code where
  name : String
deriving DecidableEq, Repr, Inhabited

namespace Code

def internalError : Code := ⟨"ERR001"⟩
def initializationFailure : Code := ⟨"ERR002"⟩
def tooManyWords : Code := ⟨"E020"⟩
def wordTooLong : Code := ⟨"E021"⟩
def emptyTokenStream : Code := ⟨"E041"⟩
def utteranceTooLong : Code := ⟨"E042"⟩
def unexpectedToken : Code := ⟨"E050"⟩
def internalParserError : Code := ⟨"E086"⟩
def maxDerivationDepth : Code := ⟨"E087"⟩
def undefinedRule : Code := ⟨"E060"⟩
def unreachableRule : Code := ⟨"E061"⟩
def ambiguousDerivation : Code := ⟨"W010"⟩
def inputWhileAsleep : Code := ⟨"W011"⟩
def reduction : Code := ⟨"D010"⟩
def chartSummary : Code := ⟨"D011"⟩
def initialized : Code := ⟨"I004"⟩
def tokenized : Code := ⟨"I020"⟩
def parsed : Code := ⟨"I040"⟩
def grammarValidated : Code := ⟨"I041"⟩
def fellAsleep : Code := ⟨"I090"⟩
def wokeUp : Code := ⟨"I091"⟩

/-- The code of warnings without one of their own. -/
def plainWarning : Code := ⟨"W000"⟩

/-- The code of informational events without one of their own. -/
def plainInfo : Code := ⟨"I000"⟩

/-- The code of debugging events without one of their own. -/
def plainDebug : Code := ⟨"D000"⟩

end Code

/-- How grave the cause of an event is. -/
inductive Severity where
  | critical | high | medium | low
deriving DecidableEq, Repr, Inhabited

namespace Severity

/-- Place of the severity, the gravest at zero. -/
def rank : Severity → Nat
  | .critical => 0
  | .high => 1
  | .medium => 2
  | .low => 3

def name : Severity → String
  | .critical => "Critical"
  | .high => "High"
  | .medium => "Medium"
  | .low => "Low"

end Severity

/-- What a code means and what to do about it. -/
structure CodeInfo where
  code : Code
  category : String
  severity : Severity
  /-- Whether another utterance can follow in the same session. -/
  recoverable : Bool
  description : String
  recommendedAction : String
deriving Repr

namespace Code

/-- Every registered code with its metadata. -/
def registry : List CodeInfo := [
  ⟨internalError, "System", .critical, false,
    "Critical internal system error",
    "File a bug report with the utterance that triggered it"⟩,
  ⟨initializationFailure, "System", .critical, false,
    "System initialization failure",
    "Check runtime configuration and environment variables"⟩,
  ⟨tooManyWords, "Lexical", .medium, true,
    "Utterance has more words than the configured limit",
    "Split the command into shorter utterances"⟩,
  ⟨wordTooLong, "Lexical", .low, true,
    "Recognised word exceeds the maximum word length",
    "Check the recogniser output for run-together words"⟩,
  ⟨emptyTokenStream, "Syntax", .medium, true,
    "Token stream is empty",
    "Terminate every utterance with an END token"⟩,
  ⟨utteranceTooLong, "Syntax", .medium, true,
    "Token stream exceeds the configured utterance length",
    "Split the command into shorter utterances"⟩,
  ⟨unexpectedToken, "Syntax", .low, true,
    "Token does not fit any command at this position",
    "Repeat the utterance; the word number identifies the misheard word"⟩,
  ⟨internalParserError, "Syntax", .high, false,
    "Semantic action received a value of the wrong shape",
    "The production table and its actions disagree; file a bug report"⟩,
  ⟨maxDerivationDepth, "Syntax", .high, false,
    "Derivation depth limit exceeded",
    "Raise max_derivation_depth or shorten the utterance"⟩,
  ⟨undefinedRule, "Grammar", .critical, false,
    "Production references a nonterminal with no alternatives",
    "Add productions for the nonterminal or remove the reference"⟩,
  ⟨unreachableRule, "Grammar", .low, true,
    "Nonterminal cannot be reached from any entry point",
    "Remove the dead productions or reference them from a command"⟩,
  ⟨ambiguousDerivation, "Syntax", .low, true,
    "More than one derivation matched; the tie-break policy chose one",
    "Review the productions involved for overlapping alternatives"⟩,
  ⟨inputWhileAsleep, "Session", .low, true,
    "Command recognised while the session is asleep and was discarded",
    "Say \"start listening\" to resume command execution"⟩,
  ⟨reduction, "Trace", .low, true,
    "Production reduced",
    "No action required"⟩,
  ⟨chartSummary, "Trace", .low, true,
    "Chart construction statistics",
    "No action required"⟩,
  ⟨initialized, "System", .low, true,
    "System initialization completed",
    "Continue normal operation"⟩,
  ⟨tokenized, "Lexical", .low, true,
    "Utterance classified into tokens",
    "Continue to parsing"⟩,
  ⟨parsed, "Syntax", .low, true,
    "Action tree constructed",
    "Hand the action to the executor"⟩,
  ⟨grammarValidated, "Grammar", .low, true,
    "Production table validated",
    "Continue normal operation"⟩,
  ⟨fellAsleep, "Session", .low, true,
    "Session went to sleep",
    "Say \"start listening\" to resume"⟩,
  ⟨wokeUp, "Session", .low, true,
    "Session woke up",
    "Continue normal operation"⟩]

/-- The metadata of a registered code. -/
def info? (code : Code) : Option CodeInfo := registry.find? fun info => info.code == code

def severity (code : Code) : Severity := (code.info?.map CodeInfo.severity).getD .medium

/-- Whether a session goes on after the code; it does if it is not registered. -/
def isRecoverable (code : Code) : Bool := (code.info?.map CodeInfo.recoverable).getD true

/-- What the code means. -/
def description (code : Code) : String :=
  (code.info?.map CodeInfo.description).getD "Unknown error"

/-- What to do about the code. -/
def recommendedAction (code : Code) : String :=
  (code.info?.map CodeInfo.recommendedAction).getD "No specific action available"

/-- The part of the program the code belongs to. -/
def category (code : Code) : String := (code.info?.map CodeInfo.category).getD "Unknown"

end Code

end SpokenKeys.Log
