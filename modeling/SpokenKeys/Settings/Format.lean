import SpokenKeys.Json.Basic
import SpokenKeys.Toml.Basic

/-!
What preferences need of a document format. Preferences are written in several
formats, which differ in what they take for a record or for a missing text.
-/

namespace SpokenKeys

/-- How the documents of a format give the values that preferences are made of. -/
structure DocumentFormat (α : Type) where
  /-- The fields of a record by their names, those that are missing as none. -/
  record? : List String → α → Option (List (Option α))
  flag? : α → Option Bool
  /-- A text, or a value that says there is none. -/
  textOrNone? : α → Option (Option String)
  /-- The name of one of several bare alternatives. -/
  name? : α → Option String

namespace DocumentFormat

/-- JSON, where null stands for no text. -/
def json : DocumentFormat Json where
  record? := Json.record?
  flag? := Json.bool?
  textOrNone?
    | .null => some none
    | document => some <$> document.text?
  name? := Json.bareName?

/-- TOML, where a text that is missing is not mentioned. -/
def toml : DocumentFormat Toml where
  record? := Toml.record?
  flag? := Toml.bool?
  textOrNone? document := some <$> document.text?
  name? := Toml.bareName?

/-- A field of a record: its default if it is missing. -/
def field? {α β : Type} (read? : α → Option β) (default : β) : Option α → Option β
  | none => some default
  | some document => read? document

end DocumentFormat

end SpokenKeys
