import SpokenKeys.Grammar.Commands
import SpokenKeys.Log.Journal

/-!
Checks that the parts of the library are fit for use: limits and codes, the
production table, and all of them together. The outcome is logged.
-/

namespace SpokenKeys.Validation

/-- Checks that the tokenizer's error codes are registered and its limits leave
room for words. -/
def checkTokenization : Log.Logging (Except String Unit) := do
  for code in [Log.Code.tooManyWords, Log.Code.wordTooLong] do
    if code.info?.isNone then
      return .error s!"Lexical error code {code.name} not found in metadata registry"
  if Limits.words == 0 then return .error "MAX_WORDS_PER_UTTERANCE cannot be zero"
  if Limits.wordLength == 0 then return .error "MAX_WORD_LENGTH cannot be zero"
  Log.emitDebug "Lexical limits initialized" [
    ("max_words_per_utterance", toString Limits.words),
    ("max_word_length", toString Limits.wordLength)]
  return .ok ()

/-- The event code of a defect of a table. -/
def issueCode : Grammar.Issue → Log.Code
  | .undefined _ _ => .undefinedRule
  | .unreachable _ => .unreachableRule

/-- Checks a table of productions. -/
def checkGrammar (grammar : Grammar) : Log.Logging (Except (List Grammar.Issue) Unit) := do
  let issues := grammar.issues
  if issues.isEmpty then
    Log.emit <| (Log.Event.info .grammarValidated "Grammar validated").withDetail
      "productions" (toString grammar.productions.size)
    return .ok ()
  else
    for issue in issues do
      Log.emit (.error (issueCode issue) issue.message)
    return .error issues

/-- Checks everything that a pipeline with a grammar needs. -/
def checkPipeline (grammar : Grammar) : Log.Logging (Except String Unit) := do
  Log.emitDebug "Validating pipeline configuration" []
  match ← checkTokenization with
  | .error message => return .error message
  | .ok _ =>
      match ← checkGrammar grammar with
      | .error issues =>
          let messages := "; ".intercalate (issues.map Grammar.Issue.message)
          return .error s!"Grammar validation failed: {messages}"
      | .ok _ =>
          Log.emit <| (Log.Event.info .initialized "Pipeline validation succeeded").withDetails [
            ("stages_validated", "2"),
            ("productions", toString grammar.productions.size)]
          return .ok ()

end SpokenKeys.Validation
