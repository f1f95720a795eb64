import SpokenKeys.Action
import SpokenKeys.Json.Printer

/-!
Actions as JSON documents, the form an executor receives. The kind of a node
comes first, under its own key, and the contents follow in a fixed order.
-/

namespace SpokenKeys.Action

def modifierJson (modifier : Modifier) : Json := .text modifier.keyName

mutual

def toJson : Action → Json
  | .chain items => .object [("kind", .text "chain"), ("actions", .list (toJsonList items))]
  | .move direction =>
      .object [("kind", .text "movement"), ("direction", .text direction.word)]
  | .times count body =>
      .object [("kind", .text "repeat"), ("count", .nat count.toNat), ("action", toJson body)]
  | .char value => .object [("kind", .text "char"), ("value", .text (String.singleton value))]
  | .key name => .object [("kind", .text "raw_char"), ("key", .text name)]
  | .hold modifiers body =>
      .object [("kind", .text "mod_plus_key"), ("modifiers", .list (modifiers.map modifierJson)),
        ("action", toJson body)]
  | .text content => .object [("kind", .text "sequence"), ("text", .text content)]
  | .words items => .object [("kind", .text "word_sequence"), ("words", .list (toJsonList items))]
  | .word spelling => .object [("kind", .text "null"), ("word", .text spelling)]
  | .idle => .object [("kind", .text "empty")]

def toJsonList : List Action → List Json
  | [] => []
  | action :: rest => toJson action :: toJsonList rest

end

def print (action : Action) : String := action.toJson.print

/-- The kinds of actions with their fields in order. The place of a kind in this
list is its number. -/
def kinds : List (String × List String) := [
  ("chain", ["actions"]),
  ("movement", ["direction"]),
  ("repeat", ["count", "action"]),
  ("char", ["value"]),
  ("raw_char", ["key"]),
  ("mod_plus_key", ["modifiers", "action"]),
  ("sequence", ["text"]),
  ("word_sequence", ["words"]),
  ("null", ["word"]),
  ("empty", [])]

/-- Where in a document an action stands. -/
inductive Standing where
  /-- It is not part of another action. -/
  | outer
  /-- It is part of another action. -/
  | inner
deriving DecidableEq, Repr

/-- The kind that a document names. An inner action may give the number of its
kind instead. -/
def kind? (standing : Standing) : Json → Option String
  | .text name => some name
  | .whole (.ofNat number) =>
      match standing with
      | .outer => none
      | .inner => kinds[number]?.map Prod.fst
  | _ => none

/-- The kind and the fields of an action's document. An object names them; a
list holds the kind and then the fields in their order, and nothing else. -/
def parts? (standing : Standing) (document : Json) : Option (String × List Json) := do
  match document with
  | .object members =>
      let kind ← kind? standing (← Json.lookup "kind" members)
      let fields ← (← kinds.lookup kind).mapM fun name => Json.lookup name members
      some (kind, fields)
  | .list (kind :: fields) =>
      let kind ← kind? standing kind
      if (← kinds.lookup kind).length = fields.length then some (kind, fields) else none
  | _ => none

/-- The name a document gives to one of several bare alternatives. Inside an
action an empty object, too, says that there is nothing in it. -/
def bareName? : Json → Option String
  | .object [(name, .object [])] => some name
  | document => document.bareName?

def modifierOfJson? (document : Json) : Option Modifier := do
  Modifier.ofKeyName? (← bareName? document)

/-- The action a document describes, given a bound on its nesting. -/
def read? : Nat → Standing → Json → Option Action
  | 0, _, _ => none
  | depth + 1, standing, document => do
      match ← parts? standing document with
      | ("chain", [items]) => .chain <$> (← items.list?).mapM (read? depth .inner)
      | ("movement", [direction]) => .move <$> Direction.ofWord? (← bareName? direction)
      | ("repeat", [count, body]) =>
          let count ← count.word?
          .times (UInt64.ofNat count) <$> read? depth .inner body
      | ("char", [value]) => .char <$> value.char?
      | ("raw_char", [name]) => .key <$> name.text?
      | ("mod_plus_key", [modifiers, body]) =>
          let modifiers ← (← modifiers.list?).mapM modifierOfJson?
          .hold modifiers <$> read? depth .inner body
      | ("sequence", [content]) => .text <$> content.text?
      | ("word_sequence", [items]) => .words <$> (← items.list?).mapM (read? depth .inner)
      | ("null", [spelling]) => .word <$> spelling.text?
      | ("empty", []) => some .idle
      | _ => none

def ofJson? (document : Json) : Option Action := read? document.size .outer document

end SpokenKeys.Action
