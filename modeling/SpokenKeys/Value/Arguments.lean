import SpokenKeys.Value.Basic

/-!
Reading the values of a production's right-hand side from front to back. A
reader takes one value and leaves the rest, also when it refuses the value.
-/

namespace SpokenKeys

/-- A reader of argument values: its result, or a fault, and the values left. -/
abbrev ArgumentReader := ExceptT Fault (StateM (List Value))

namespace ArgumentReader

def next? : ArgumentReader (Option Value) := do
  match ← get with
  | [] => return none
  | value :: rest =>
      set rest
      return some value

def next (production : String) : ArgumentReader Value := do
  match ← next? with
  | some value => return value
  | none => throw (.missingArgument production)

/-- Drops the first value: a keyword that the production itself stands for. -/
def skip (production : String) : ArgumentReader Unit := do
  let _ ← next production

def token (production : String) : ArgumentReader Token := do
  match ← next production with
  | .token token => return token
  | other => throw (.wrongArgument production .token other.kind)

def integer (production : String) : ArgumentReader UInt64 := do
  match ← next production with
  | .integer value => return value
  | other => throw (.wrongArgument production .integer other.kind)

/-- The first value, as an integer that may be missing or absent. -/
def integer? (production : String) : ArgumentReader (Option UInt64) := do
  match ← next? with
  | none | some .absent => return none
  | some (.integer value) => return some value
  | some other => throw (.wrongArgument production .integer other.kind)

/-- The first value, as a free-text word. -/
def word (production : String) : ArgumentReader String := do
  match ← next production with
  | .word spelling => return spelling
  | other => throw (.wrongArgument production .word other.kind)

def node (production : String) : ArgumentReader Action := do
  match ← next production with
  | .node action => return action
  | other => throw (.wrongArgument production .node other.kind)

/-- The first value, as an action that may be missing or absent. -/
def node? (production : String) : ArgumentReader (Option Action) := do
  match ← next? with
  | none | some .absent => return none
  | some (.node action) => return some action
  | some other => throw (.wrongArgument production .node other.kind)

/-- The result of a reader on all the values of a production. -/
def on {α : Type} (reader : ArgumentReader α) (values : List Value) : Except Fault α :=
  (reader.run values).1

end ArgumentReader

end SpokenKeys
