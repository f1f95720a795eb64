import SpokenKeys.Action
import SpokenKeys.Action.Json
import SpokenKeys.Action.Speech
import SpokenKeys.Chart.Basic
import SpokenKeys.Chart.Derivation
import SpokenKeys.Chart.Item
import SpokenKeys.Executor
import SpokenKeys.Files.Path
import SpokenKeys.Files.Tree
import SpokenKeys.Grammar.Basic
import SpokenKeys.Grammar.Commands
import SpokenKeys.Grammar.Derivation
import SpokenKeys.Grammar.Language
import SpokenKeys.Grammar.Production
import SpokenKeys.Grammar.Rule
import SpokenKeys.Grammar.Saturation
import SpokenKeys.Json.Basic
import SpokenKeys.Json.Grammar
import SpokenKeys.Json.Printer
import SpokenKeys.Json.Reader
import SpokenKeys.Lexicon
import SpokenKeys.Limits
import SpokenKeys.Log.Code
import SpokenKeys.Log.Event
import SpokenKeys.Log.Journal
import SpokenKeys.Log.Level
import SpokenKeys.Log.Memory
import SpokenKeys.Log.Service
import SpokenKeys.Log.Setup
import SpokenKeys.Log.Timestamp
import SpokenKeys.Meaning
import SpokenKeys.Numeral
import SpokenKeys.Parse.Error
import SpokenKeys.Parse.Evaluation
import SpokenKeys.Parser
import SpokenKeys.Pipeline
import SpokenKeys.Proofs.Acceptance
import SpokenKeys.Proofs.Agreement
import SpokenKeys.Proofs.Ambiguity
import SpokenKeys.Proofs.Blame
import SpokenKeys.Proofs.CallCounts
import SpokenKeys.Proofs.Chaining
import SpokenKeys.Proofs.ChartLimit
import SpokenKeys.Proofs.ChartSize
import SpokenKeys.Proofs.ClosedSets
import SpokenKeys.Proofs.CommandOutline
import SpokenKeys.Proofs.CommandSize
import SpokenKeys.Proofs.CommandTrees
import SpokenKeys.Proofs.ConstructedSets
import SpokenKeys.Proofs.Context
import SpokenKeys.Proofs.CutMessages
import SpokenKeys.Proofs.DeclaredForms
import SpokenKeys.Proofs.Delivery
import SpokenKeys.Proofs.DerivationDepth
import SpokenKeys.Proofs.DerivationTrace
import SpokenKeys.Proofs.Erasure
import SpokenKeys.Proofs.Evaluation
import SpokenKeys.Proofs.EventLimit
import SpokenKeys.Proofs.ExactNumbers
import SpokenKeys.Proofs.Exchange
import SpokenKeys.Proofs.ExecutorTexts
import SpokenKeys.Proofs.Extraction
import SpokenKeys.Proofs.FaithfulTokens
import SpokenKeys.Proofs.Filler
import SpokenKeys.Proofs.FilteredEvents
import SpokenKeys.Proofs.FreeText
import SpokenKeys.Proofs.GenuineDerivation
import SpokenKeys.Proofs.Hearing
import SpokenKeys.Proofs.HeldKeys
import SpokenKeys.Proofs.Interpretation
import SpokenKeys.Proofs.Items
import SpokenKeys.Proofs.Language
import SpokenKeys.Proofs.Nullable
import SpokenKeys.Proofs.NumberValues
import SpokenKeys.Proofs.NumberWords
import SpokenKeys.Proofs.Outline
import SpokenKeys.Proofs.Phrases
import SpokenKeys.Proofs.Reachability
import SpokenKeys.Proofs.ReadDocuments
import SpokenKeys.Proofs.RecentEvents
import SpokenKeys.Proofs.Recognition
import SpokenKeys.Proofs.Rejection
import SpokenKeys.Proofs.Shapes
import SpokenKeys.Proofs.SleepGate
import SpokenKeys.Proofs.SpokenCommands
import SpokenKeys.Proofs.SpokenNumbers
import SpokenKeys.Proofs.Synonyms
import SpokenKeys.Proofs.TaggedEvents
import SpokenKeys.Proofs.Telling
import SpokenKeys.Proofs.TieBreaks
import SpokenKeys.Proofs.Tokenizing
import SpokenKeys.Proofs.Tolerance
import SpokenKeys.Proofs.Trees
import SpokenKeys.Proofs.UtteranceEvents
import SpokenKeys.Proofs.UtteranceTags
import SpokenKeys.Proofs.Utterances
import SpokenKeys.Proofs.WordCounts
import SpokenKeys.Proofs.Words
import SpokenKeys.Proofs.Worklist
import SpokenKeys.Proofs.WrittenActions
import SpokenKeys.Proofs.WrittenDocuments
import SpokenKeys.Proofs.Yields
import SpokenKeys.Schema.Basic
import SpokenKeys.Schema.Codec
import SpokenKeys.Session
import SpokenKeys.Settings.Document
import SpokenKeys.Settings.Environment
import SpokenKeys.Settings.Format
import SpokenKeys.Settings.Preferences
import SpokenKeys.Text.Blank
import SpokenKeys.Text.Case
import SpokenKeys.Text.CaseTable
import SpokenKeys.Text.Hex
import SpokenKeys.Text.Lines
import SpokenKeys.Token
import SpokenKeys.Token.Stream
import SpokenKeys.Tokenizer
import SpokenKeys.Toml.Basic
import SpokenKeys.Toml.Moment
import SpokenKeys.Toml.Number
import SpokenKeys.Toml.Reader
import SpokenKeys.Toml.Table
import SpokenKeys.Toml.Text
import SpokenKeys.Validation
import SpokenKeys.Value.Arguments
import SpokenKeys.Value.Basic
