/-!
Sizes fixed when the library is built, and the profile they belong to. The
tokenizer, the chart and the log read them from here only.
-/

namespace SpokenKeys.Limits

def words : Nat := 256

def wordLength : Nat := 64

/-- Most tokens in one utterance: its words and the closing end marker. -/
def tokens : Nat := words + 1

/-- Deepest node of a derivation, the root being at depth zero. -/
def derivationDepth : Nat := 2048

/-- Most items in one chart, over all of its sets. -/
def chartItems : Nat := 200000

/-- Capacity of a memory log that is not given one. -/
def logBuffer : Nat := 1000

/-- Most bytes of a log message before it is cut. -/
def messageBytes : Nat := 1024

/-- Most events, errors apart, that one utterance may log. -/
def utteranceEvents : Nat := 500

/-- Name of the profile the sizes belong to. -/
def profile : String := "development"

/-- Directory of the profile's file. -/
def directory : String := "config"

/-- Where the sizes come from, in words. -/
def source : String := s!"Generated from {directory}/{profile}.toml"

end SpokenKeys.Limits
