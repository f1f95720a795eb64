import Mathlib.Data.ENat.Basic
import SpokenKeys.Json.Grammar
import SpokenKeys.Json.Printer
import SpokenKeys.Json.Reader
import SpokenKeys.Schema.Basic

/-!
Codecs. The functions that write values of declared types as texts, and read them back,
are made from the declarations by a library that is not part of this one. A codec stands
for them, with what such a library promises: it writes the declared form as a JSON text,
and it reads every JSON text that describes a value, up to some depth of nesting.
-/

namespace SpokenKeys

/-- Functions that write and read the values of declared types. Both may refuse. -/
structure Codec where
  write : Schema → DataType → Content → Option String
  read : Schema → DataType → String → Option Content

namespace Codec

/-- The codec writes every value that has a form, as a text that spells the form. -/
def WritesForms (codec : Codec) : Prop :=
  ∀ (schema : Schema) (type : DataType) (content : Content) (document : Json),
    schema.IsUnambiguous → schema.form? content type = some document →
      ∃ text, codec.write schema type content = some text ∧ document.Spells text

/-- The codec reads every text that spells a description of a value, however it is
spelled, with lists and objects nested at most so deep. -/
def ReadsDescriptions (codec : Codec) (limit : ℕ∞) : Prop :=
  ∀ (schema : Schema) (type : DataType) (content : Content) (document : Json) (text : String),
    schema.IsUnambiguous → schema.Describes content type document → document.Spells text →
      (document.depth : ℕ∞) ≤ limit → codec.read schema type text = some content

end Codec

namespace Declaration

/-- The alternative that a document is of, with the members to look for its fields in. -/
def shown? (document : Json) : Declaration → Option (Alternative × List (String × Json))
  | .names alternatives => do
      let written ← document.text?
      (·, []) <$> alternatives.find? fun alternative => alternative.written == written
  | .tagged tag alternatives =>
      match document with
      | .object members => do
          let written ← (← Json.lookup tag members).text?
          (·, members) <$> alternatives.find? fun alternative => alternative.written == written
      | _ => none
  | .record only =>
      match document with
      | .object members => some (only, members)
      | _ => none

end Declaration

namespace Schema

/-- The value of a type that a document describes, given a bound on its nesting. -/
def read? (schema : Schema) : Nat → DataType → Json → Option Content
  | 0, _, _ => none
  | fuel + 1, type, document =>
      match type with
      | .text => .text <$> document.text?
      | .char => .char <$> document.char?
      | .number => (fun n => .number (UInt64.ofNat n)) <$> document.word?
      | .flag => .flag <$> document.bool?
      | .list item => do .list <$> (← document.list?).mapM (read? schema fuel item)
      | .declared declared => do
          let (alternative, members) ← (← schema.lookup declared).shown? document
          .made alternative.name <$> alternative.fields.mapM fun field => do
            read? schema fuel field.type (← Json.lookup field.name members)

end Schema

/-- The codec that writes forms without blanks and reads them by way of documents, nested
at most so deep. -/
def Codec.compact (limit : Nat) : Codec where
  write schema type content := Json.print <$> schema.form? content type
  read schema type text := do
    let document ← Json.parse? text
    if document.depth ≤ limit then schema.read? (document.depth + 1) type document else none

end SpokenKeys
