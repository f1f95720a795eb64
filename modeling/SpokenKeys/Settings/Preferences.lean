import SpokenKeys.Settings.Environment
import SpokenKeys.Settings.Format
import SpokenKeys.Text.Blank

/-!
What users may choose while the program runs. Every preference has a default
that the environment may change; documents may leave any of them out.
-/

namespace SpokenKeys

/-- Preferences for parsing. -/
structure GrammarPreferences where
  /-- Drop filler words from the front of an utterance. -/
  dropsJunk : Bool := false
  /-- Log every production that is reduced. -/
  logsReductions : Bool := false
  /-- Warn when a derivation was one of several. -/
  warnsOnAmbiguity : Bool := true
deriving DecidableEq, Repr, Inhabited

/-- Preferences for the classification of words. -/
structure LexicalPreferences where
  /-- Look words up in lower case too. -/
  lowercases : Bool := true
  /-- Log how many words were free text. -/
  logsStatistics : Bool := false
deriving DecidableEq, Repr, Inhabited

/-- Preferences for logging. -/
structure LoggingPreferences where
  /-- Write events as JSON. -/
  structured : Bool := false
  /-- Write events to the console. -/
  console : Bool := false
  minLevel : Log.Level := .info
  /-- The file that receives a copy of every event. -/
  file : Option String := none
  /-- Tag events with the number of their utterance. -/
  tagsUtterances : Bool := true
deriving DecidableEq, Repr, Inhabited

/-- All preferences. -/
structure Preferences where
  grammar : GrammarPreferences := {}
  lexical : LexicalPreferences := {}
  logging : LoggingPreferences := {}
deriving DecidableEq, Repr, Inhabited

open DocumentFormat (field?)

namespace GrammarPreferences

/-- The defaults in an environment. -/
def ofEnvironment (environment : Environment) : GrammarPreferences where
  dropsJunk := (environment.flag? "VOICE_GRAMMAR_DISCARD_JUNK").getD false
  logsReductions := (environment.flag? "VOICE_GRAMMAR_TRACE_REDUCTIONS").getD false
  warnsOnAmbiguity := (environment.flag? "VOICE_GRAMMAR_WARN_ON_AMBIGUITY").getD true

/-- The preferences a document describes, over defaults. -/
def read? {α : Type} (format : DocumentFormat α) (defaults : GrammarPreferences)
    (document : α) : Option GrammarPreferences := do
  let names := ["discard_junk_prefix", "trace_reductions", "warn_on_ambiguity"]
  match ← format.record? names document with
  | [dropsJunk, logsReductions, warnsOnAmbiguity] =>
      let dropsJunk ← field? format.flag? defaults.dropsJunk dropsJunk
      let logsReductions ← field? format.flag? defaults.logsReductions logsReductions
      let warnsOnAmbiguity ← field? format.flag? defaults.warnsOnAmbiguity warnsOnAmbiguity
      some { dropsJunk, logsReductions, warnsOnAmbiguity }
  | _ => none

/-- The preferences as a document. -/
def toJson (preferences : GrammarPreferences) : Json :=
  .object [
    ("discard_junk_prefix", .bool preferences.dropsJunk),
    ("trace_reductions", .bool preferences.logsReductions),
    ("warn_on_ambiguity", .bool preferences.warnsOnAmbiguity)]

end GrammarPreferences

namespace LexicalPreferences

/-- The defaults in an environment. -/
def ofEnvironment (environment : Environment) : LexicalPreferences where
  lowercases := (environment.flag? "VOICE_LEXICAL_LOWERCASE").getD true
  logsStatistics := (environment.flag? "VOICE_LEXICAL_LOG_STATISTICS").getD false

/-- The preferences a document describes, over defaults. -/
def read? {α : Type} (format : DocumentFormat α) (defaults : LexicalPreferences)
    (document : α) : Option LexicalPreferences := do
  match ← format.record? ["lowercase_words", "log_word_statistics"] document with
  | [lowercases, logsStatistics] =>
      let lowercases ← field? format.flag? defaults.lowercases lowercases
      let logsStatistics ← field? format.flag? defaults.logsStatistics logsStatistics
      some { lowercases, logsStatistics }
  | _ => none

/-- The preferences as a document. -/
def toJson (preferences : LexicalPreferences) : Json :=
  .object [
    ("lowercase_words", .bool preferences.lowercases),
    ("log_word_statistics", .bool preferences.logsStatistics)]

end LexicalPreferences

namespace LoggingPreferences

/-- The defaults in an environment. -/
def ofEnvironment (environment : Environment) : LoggingPreferences where
  structured := (environment.flag? "VOICE_LOGGING_USE_STRUCTURED").getD false
  console := (environment.flag? "VOICE_LOGGING_ENABLE_CONSOLE").getD false
  minLevel := (environment.level? "VOICE_LOGGING_MIN_LEVEL").getD .info
  file := (environment.text? "VOICE_LOGGING_FILE").filter (!·.isEmpty)
  tagsUtterances := (environment.flag? "VOICE_LOGGING_INCLUDE_UTTERANCE").getD true

/-- The level that a document names. -/
def level? {α : Type} (format : DocumentFormat α) (document : α) : Option Log.Level :=
  (format.name? document).bind Log.Level.ofName?

/-- The preferences a document describes, over defaults. -/
def read? {α : Type} (format : DocumentFormat α) (defaults : LoggingPreferences)
    (document : α) : Option LoggingPreferences := do
  let names := ["use_structured_logging", "enable_console_logging", "min_log_level", "log_file",
    "include_utterance_context"]
  match ← format.record? names document with
  | [structured, console, minLevel, file, tagsUtterances] =>
      let structured ← field? format.flag? defaults.structured structured
      let console ← field? format.flag? defaults.console console
      let minLevel ← field? (level? format) defaults.minLevel minLevel
      let file ← field? format.textOrNone? defaults.file file
      let tagsUtterances ← field? format.flag? defaults.tagsUtterances tagsUtterances
      some { structured, console, minLevel, file, tagsUtterances }
  | _ => none

/-- The preferences as a document. -/
def toJson (preferences : LoggingPreferences) : Json :=
  .object [
    ("use_structured_logging", .bool preferences.structured),
    ("enable_console_logging", .bool preferences.console),
    ("min_log_level", .text preferences.minLevel.name),
    ("log_file", match preferences.file with
      | some file => .text file
      | none => .null),
    ("include_utterance_context", .bool preferences.tagsUtterances)]

/-- Whether the preferences make sense: a log file has a name. -/
def isUsable (preferences : LoggingPreferences) : Bool :=
  match preferences.file with
  | some file => !Text.isBlankText file
  | none => true

end LoggingPreferences

namespace Preferences

/-- The defaults in an environment. -/
def ofEnvironment (environment : Environment) : Preferences where
  grammar := .ofEnvironment environment
  lexical := .ofEnvironment environment
  logging := .ofEnvironment environment

/-- The preferences a document describes, over defaults. -/
def read? {α : Type} (format : DocumentFormat α) (defaults : Preferences)
    (document : α) : Option Preferences := do
  match ← format.record? ["grammar", "lexical", "logging"] document with
  | [grammar, lexical, logging] =>
      let grammar ← field? (defaults.grammar.read? format) defaults.grammar grammar
      let lexical ← field? (defaults.lexical.read? format) defaults.lexical lexical
      let logging ← field? (defaults.logging.read? format) defaults.logging logging
      some { grammar, lexical, logging }
  | _ => none

/-- The preferences as a document. -/
def toJson (preferences : Preferences) : Json :=
  .object [
    ("grammar", preferences.grammar.toJson),
    ("lexical", preferences.lexical.toJson),
    ("logging", preferences.logging.toJson)]

end Preferences

end SpokenKeys
