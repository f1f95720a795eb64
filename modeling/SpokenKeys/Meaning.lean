import SpokenKeys.Lexicon
import SpokenKeys.Log.Event
import SpokenKeys.Session
import SpokenKeys.Text.Case
import SpokenKeys.Value.Arguments

/-!
What productions mean: from the values of a right-hand side, in spoken order, to
the value of the left-hand side. Only the sleep phrases change the session, and
only the entry productions look at it.
-/

namespace SpokenKeys

/-- A scale word of a spoken number. -/
inductive Scale where
  | thousand | million | billion
deriving DecidableEq, Repr, Inhabited

namespace Scale

def word : Scale → String
  | .thousand => Lexicon.thousand
  | .million => Lexicon.million
  | .billion => Lexicon.billion

/-- What a scale multiplies by. -/
def factor : Scale → UInt64
  | .thousand => 1000
  | .million => 1000000
  | .billion => 1000000000

end Scale

/-- The meanings that productions can have. -/
inductive Meaning where
  | input
  | tolerantInput
  | junk
  | sleepPhrase
  | commands
  | command
  | movement
  | count
  | number
  | group
  | smallNumber
  | tens
  | hundreds
  | scaled (scale : Scale)
  | skyLetter
  | letter
  | character
  | editing
  | held
  | spelledWord
  | sentence
  | identifier
  | phrase
  | wordRun
  | rawWord
deriving DecidableEq, Repr, Inhabited

namespace Meaning

/-- Every meaning. -/
def all : List Meaning := [
  .input, .tolerantInput, .junk, .sleepPhrase, .commands, .command, .movement, .count, .number,
  .group, .smallNumber, .tens, .hundreds, .scaled .thousand, .scaled .million, .scaled .billion,
  .skyLetter, .letter, .character, .editing, .held, .spelledWord, .sentence, .identifier,
  .phrase, .wordRun, .rawWord]

def name : Meaning → String
  | .input => "single_input"
  | .tolerantInput => "single_input_discard_junk"
  | .junk => "junk_tokens"
  | .sleepPhrase => "sleep_commands"
  | .commands => "chained_commands"
  | .command => "single_command"
  | .movement => "movement"
  | .count => "repeat"
  | .number => "number_rule"
  | .group => "number_set"
  | .smallNumber => "small_number"
  | .tens => "tens"
  | .hundreds => "hundreds"
  | .scaled .thousand => "thousand_number_set"
  | .scaled .million => "million_number_set"
  | .scaled .billion => "billion_number_set"
  | .skyLetter => "sky_letter"
  | .letter => "letter"
  | .character => "character"
  | .editing => "editing"
  | .held => "modifiers"
  | .spelledWord => "english"
  | .sentence => "word_sentence"
  | .identifier => "word_variable"
  | .phrase => "word_phrase"
  | .wordRun => "word_repeat"
  | .rawWord => "raw_word"

def ofName? (name : String) : Option Meaning := all.find? fun meaning => meaning.name == name

theorem mem_all (meaning : Meaning) : meaning ∈ all := by
  cases meaning with
  | scaled scale => cases scale <;> decide
  | _ => decide

end Meaning

/-- The product, unless it needs more than 64 bits. -/
def checkedMul (first second : UInt64) : Option UInt64 :=
  if first.toNat * second.toNat < UInt64.size then some (first * second) else none

/-- The sum, unless it needs more than 64 bits. -/
def checkedAdd (first second : UInt64) : Option UInt64 :=
  if first.toNat + second.toNat < UInt64.size then some (first + second) else none

/-- Head times multiplier plus tail, unless the product or the sum needs more than 64 bits. -/
def scaleAndAdd (head multiplier tail : UInt64) : Except Fault UInt64 :=
  match (checkedMul head multiplier).bind fun product => checkedAdd product tail with
  | some value => .ok value
  | none => .error (.overflow head multiplier tail)

/-- Neither check fails on its own: both pass if and only if 64 bits hold the result. -/
theorem scaleAndAdd_eq (head multiplier tail : UInt64) :
    scaleAndAdd head multiplier tail =
      if head.toNat * multiplier.toNat + tail.toNat < UInt64.size then
        .ok (.ofNat (head.toNat * multiplier.toNat + tail.toNat))
      else .error (.overflow head multiplier tail) := by
  rw [scaleAndAdd, checkedMul]
  by_cases hproduct : head.toNat * multiplier.toNat < UInt64.size
  · have hexact : (head * multiplier).toNat = head.toNat * multiplier.toNat := by
      rw [UInt64.toNat_mul]
      exact Nat.mod_eq_of_lt hproduct
    rw [if_pos hproduct, Option.bind_some, checkedAdd, hexact]
    by_cases hsum : head.toNat * multiplier.toNat + tail.toNat < UInt64.size
    · have hvalue : head * multiplier + tail =
          .ofNat (head.toNat * multiplier.toNat + tail.toNat) := by
        rw [← hexact, UInt64.ofNat_add, UInt64.ofNat_toNat, UInt64.ofNat_toNat]
      rw [if_pos hsum, if_pos hsum, hvalue]
    · rw [if_neg hsum, if_neg hsum]
  · have hsum : ¬ head.toNat * multiplier.toNat + tail.toNat < UInt64.size := by omega
    rw [if_neg hproduct, Option.bind_none, if_neg hsum]

/-- The sum of integers, added one by one from the left. -/
def sumArguments (total : UInt64) : List Value → Except Fault UInt64
  | [] => .ok total
  | .integer value :: rest => do
      let total ← scaleAndAdd total 1 value
      sumArguments total rest
  | other :: _ => .error (.wrongArgument Meaning.group.name .integer other.kind)

/-- The tokens among the values, all of which must be tokens. -/
def tokenArguments (production : String) : List Value → Except Fault (List Token)
  | [] => .ok []
  | .token token :: rest => do
      let tokens ← tokenArguments production rest
      .ok (token :: tokens)
  | other :: _ => .error (.wrongArgument production .token other.kind)

namespace Meaning

open ArgumentReader

/-- Looks a word up, or reports that it is not of the expected sort. -/
def lookUp {α : Type} (production expected : String) (find : String → Option α)
    (word : String) : ArgumentReader α :=
  match find word with
  | some found => return found
  | none => throw (.unknownWord production word expected)

/-- A keyword and a run of words, of which the first is capitalised. -/
def capitalizedRun (production : String) : ArgumentReader Value := do
  skip production
  match ← node production with
  | .words (.word first :: rest) =>
      return .node (.words (.word (Text.capitalize first) :: rest))
  | other => return .node other

/-- The value of a production that has nothing to do with the session; the
meanings that have are given their own functions below. -/
def reader (meaning : Meaning) : ArgumentReader Value :=
  let production := meaning.name
  match meaning with
  | .input | .tolerantInput | .sleepPhrase | .junk => return .absent
  | .commands => do
      let first ← node production
      match ← node? production with
      | none => return .node (.chain [first])
      | some (.chain rest) => return .node (.chain (first :: rest))
      | some other => throw (.wrongNode production "chain" other.kindName)
  | .command => .node <$> node production
  | .movement => do
      let token ← token production
      let direction ← lookUp production "a direction" Direction.ofWord? token.kind
      let repeats ← integer? production
      return .node (Action.timesIf repeats (.move direction))
  | .count => do
      match ← integer? production with
      | some repeats => return .integer repeats
      | none => return .absent
  | .number => do
      skip production
      let value ← integer production
      return .node (.text (toString value.toNat))
  | .group => do
      let total ← liftExcept (sumArguments 0 (← get))
      return .integer total
  | .smallNumber => do
      let token ← token production
      .integer <$> lookUp production "a number word" Lexicon.smallNumber? token.kind
  | .tens => do
      let token ← token production
      .integer <$> lookUp production "a tens word" Lexicon.tens? token.kind
  | .hundreds => do
      let ones ← integer production
      skip production
      .integer <$> liftExcept (scaleAndAdd ones 100 0)
  | .scaled scale => do
      let head ← integer production
      skip production
      let tail ← integer? production
      .integer <$> liftExcept (scaleAndAdd head scale.factor (tail.getD 0))
  | .skyLetter => do
      skip production
      match ← node production with
      | .char value => return .node (.char value.toUpper)
      | other => throw (.wrongNode production "char" other.kindName)
  | .letter => do
      let token ← token production
      let value ← lookUp production "a letter codeword" Lexicon.letter? token.kind
      return .node (.char value)
  | .character => do
      let token ← token production
      let key ← lookUp production "a character name" Lexicon.character? token.kind
      return .node (.key key)
  | .editing => do
      let token ← token production
      let key ← lookUp production "an editing word" Lexicon.editing? token.kind
      let repeats ← integer? production
      return .node (Action.timesIf repeats (.key key))
  | .held => do
      let token ← token production
      let modifier ← lookUp production "a modifier" Modifier.ofWord? token.kind
      match ← node production with
      | .hold modifiers body => return .node (.hold (modifier :: modifiers) body)
      | other => return .node (.hold [modifier] other)
  | .spelledWord => do
      skip production
      let token ← token production
      return .node (.text token.text)
  | .sentence => capitalizedRun production
  | .identifier => capitalizedRun production
  | .phrase => do
      skip production
      .node <$> node production
  | .wordRun => do
      let first ← word production
      match ← node? production with
      | none => return .node (.words [.word first])
      | some (.words rest) => return .node (.words (.word first :: rest))
      | some other => throw (.wrongNode production "word_sequence" other.kindName)
  | .rawWord => do
      let token ← token production
      return .word token.text
where
  /-- A result without reading. -/
  liftExcept {α : Type} (result : Except Fault α) : ArgumentReader α :=
    match result with
    | .ok value => return value
    | .error fault => throw fault

/-- What a production comes to: its value, the session afterwards and the events
that this calls for. -/
structure Outcome where
  value : Value
  session : Session
  events : List Log.Event := []
deriving Repr

/-- A finished utterance. A sleeping session swallows it, and says so unless
there was nothing to swallow. -/
def gate (session : Session) (action : Action) : Outcome :=
  if session.isSleeping then
    { value := .node .idle
      session
      events :=
        if action.isIdle then []
        else [(Log.Event.warning .inputWhileAsleep "Input ignored while asleep").withDetail
          "kind" action.kindName] }
  else { value := .node action, session }

/-- The outcome of an utterance: nothing was said, or the action is gated. -/
def applyInput (session : Session) (values : List Value) : Except Fault Outcome :=
  match values with
  | [] => .error (.missingArgument Meaning.input.name)
  | .token token :: _ =>
      if token.isEnd then .ok { value := .node .idle, session }
      else .error (.unexpectedArgument Meaning.input.name .token)
  | .node action :: _ => .ok (gate session action)
  | other :: _ => .error (.unexpectedArgument Meaning.input.name other.kind)

/-- The outcome of an utterance whose leading filler words are dropped. -/
def applyTolerantInput (session : Session) (values : List Value) : Except Fault Outcome :=
  match values with
  | [] => .error (.missingArgument Meaning.tolerantInput.name)
  | .token token :: _ =>
      if token.isEnd then .ok { value := .node .idle, session }
      else .error (.unexpectedArgument Meaning.tolerantInput.name .token)
  | .absent :: rest => do
      let action ← (node Meaning.tolerantInput.name).on rest
      .ok (gate session action)
  | other :: _ => .error (.unexpectedArgument Meaning.tolerantInput.name other.kind)

/-- The outcome of a sleep or wake phrase, which its last word tells apart. -/
def applySleepPhrase (values : List Value) : Except Fault Outcome := do
  let tokens ← tokenArguments Meaning.sleepPhrase.name values
  match tokens.getLast? with
  | none => .error (.noWords Meaning.sleepPhrase.name)
  | some last =>
      if last.kind == "sleep" then
        .ok {
          value := .node .idle
          session := .asleep
          events := [Log.Event.info .fellAsleep "Going to sleep."] }
      else
        .ok {
          value := .node .idle
          session := .awake
          events := [Log.Event.info .wokeUp "Waking from sleep"] }

/-- What a production comes to in a session. -/
def apply (meaning : Meaning) (session : Session) (values : List Value) : Except Fault Outcome :=
  match meaning with
  | .input => applyInput session values
  | .tolerantInput => applyTolerantInput session values
  | .sleepPhrase => applySleepPhrase values
  | other => do
      let value ← other.reader.on values
      .ok { value, session }

end Meaning

end SpokenKeys
