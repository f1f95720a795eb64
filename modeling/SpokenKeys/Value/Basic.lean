import SpokenKeys.Action
import SpokenKeys.Token

/-!
Values that flow up a derivation, and the faults that the meaning of a
production may find in them. A fault means that the production table and the
meanings disagree.
-/

namespace SpokenKeys

/-- The value of a node of a derivation. -/
inductive Value where
  /-- A matched terminal. -/
  | token (token : Token)
  /-- A number or a part of one. -/
  | integer (value : UInt64)
  /-- A free-text word. -/
  | word (spelling : String)
  /-- A finished tree of actions. -/
  | node (action : Action)
  /-- Nothing was spoken. -/
  | absent
deriving DecidableEq, Repr, Inhabited

/-- The kinds of values. -/
inductive ValueKind where
  | token | integer | word | node | absent
deriving DecidableEq, Repr, Inhabited

def ValueKind.name : ValueKind → String
  | .token => "token"
  | .integer => "integer"
  | .word => "word"
  | .node => "node"
  | .absent => "absent"

namespace Value

def kind : Value → ValueKind
  | .token _ => .token
  | .integer _ => .integer
  | .word _ => .word
  | .node _ => .node
  | .absent => .absent

/-- Whether nothing was spoken. -/
def isAbsent : Value → Bool
  | .absent => true
  | _ => false

end Value

/-- Why the meaning of a production found no value. The first argument names
the production, where there is one. -/
inductive Fault where
  | missingArgument (production : String)
  | wrongArgument (production : String) (expected found : ValueKind)
  /-- The word is in no table of the production. -/
  | unknownWord (production word expected : String)
  | wrongNode (production expected found : String)
  | unexpectedArgument (production : String) (found : ValueKind)
  | noWords (production : String)
  | overflow (head multiplier tail : UInt64)
deriving DecidableEq, Repr

def Fault.message : Fault → String
  | .missingArgument production => s!"{production}: missing argument"
  | .wrongArgument production expected found =>
      s!"{production}: expected {expected.name} argument, found {found.name}"
  | .unknownWord production word expected => production ++ ": `" ++ word ++ "' is not " ++ expected
  | .wrongNode production expected found =>
      s!"{production}: expected {expected} node, found {found}"
  | .unexpectedArgument production found => s!"{production}: unexpected {found.name} argument"
  | .noWords production => s!"{production}: no words"
  | .overflow head multiplier tail => s!"number overflow: {head} * {multiplier} + {tail}"

end SpokenKeys
