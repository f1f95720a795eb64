import SpokenKeys.Json.Basic

/-!
Declared data and its documents. A declaration lists the alternatives of a type, the
names under which they are written and their fields. A value of a declared type has one
written form; a document describes the value also with the members of an object in
another order.
-/

namespace SpokenKeys

/-- How a declared name is respelled where it is written. -/
inductive NameStyle where
  /-- In lower case. -/
  | lowercase
  /-- In lower case, with an underscore in front of every capital but the first letter. -/
  | snakeCase
deriving DecidableEq, Repr

def NameStyle.respellChars : NameStyle → List Char → List Char
  | .lowercase, name => name.map Char.toLower
  | .snakeCase, [] => []
  | .snakeCase, first :: rest =>
      first.toLower :: rest.flatMap fun c => if c.isUpper then ['_', c.toLower] else [c]

def NameStyle.respell (style : NameStyle) (name : String) : String :=
  String.ofList (style.respellChars name.toList)

/-- The type of a part of a value. -/
inductive DataType where
  | text
  | char
  /-- A natural number below 2^64. -/
  | number
  | flag
  | list (item : DataType)
  /-- A type that a declaration is given for. -/
  | declared (name : String)
deriving DecidableEq, Repr

structure Field where
  name : String
  type : DataType
deriving DecidableEq, Repr

/-- One way to make a value of a declared type. -/
structure Alternative where
  name : String
  /-- The name in documents. -/
  written : String
  fields : List Field
deriving DecidableEq, Repr

inductive Declaration where
  /-- Names without fields, each written as a text. -/
  | names (alternatives : List Alternative)
  /-- Alternatives written as objects, in which the member of a tag tells which one it is. -/
  | tagged (tag : String) (alternatives : List Alternative)
  /-- A record, written as an object of its fields. -/
  | record (only : Alternative)

namespace Declaration

def alternatives : Declaration → List Alternative
  | .names alternatives | .tagged _ alternatives => alternatives
  | .record only => [only]

/-- The written form of an alternative with the members of its fields. -/
def form? : Declaration → Alternative → List (String × Json) → Option Json
  | .names _, alternative, [] => some (.text alternative.written)
  | .names _, _, _ :: _ => none
  | .tagged tag _, alternative, members =>
      some (.object ((tag, .text alternative.written) :: members))
  | .record _, _, members => some (.object members)

/-- The document is of the alternative, and the members are those of its fields. An object
may have its members in any order. -/
def Shows (document : Json) (alternative : Alternative) (members : List (String × Json)) :
    Declaration → Prop
  | .names alternatives =>
      alternative ∈ alternatives ∧ members = [] ∧ document = .text alternative.written
  | .tagged tag alternatives => alternative ∈ alternatives ∧
      ∃ entries, entries.Perm ((tag, .text alternative.written) :: members) ∧
        document = .object entries
  | .record only => alternative = only ∧
      ∃ entries, entries.Perm members ∧ document = .object entries

/-- No two alternatives are written alike, and no two members of an object are. -/
def IsUnambiguous : Declaration → Prop
  | .names alternatives => (alternatives.map Alternative.written).Nodup
  | .tagged tag alternatives => (alternatives.map Alternative.written).Nodup ∧
      ∀ alternative ∈ alternatives, (tag :: alternative.fields.map Field.name).Nodup
  | .record only => (only.fields.map Field.name).Nodup

instance (declaration : Declaration) : Decidable declaration.IsUnambiguous :=
  match declaration with
  | .names alternatives => inferInstanceAs (Decidable (alternatives.map Alternative.written).Nodup)
  | .tagged tag alternatives =>
      inferInstanceAs (Decidable ((alternatives.map Alternative.written).Nodup ∧
        ∀ alternative ∈ alternatives, (tag :: alternative.fields.map Field.name).Nodup))
  | .record only => inferInstanceAs (Decidable (only.fields.map Field.name).Nodup)

end Declaration

/-- The declarations of some types by their names. -/
abbrev Schema := List (String × Declaration)

/-- A value of a declared type. -/
inductive Content where
  | text (content : String)
  | char (value : Char)
  | number (value : UInt64)
  | flag (value : Bool)
  | list (items : List Content)
  /-- A value made by the alternative of a name, with its fields in the declared order. -/
  | made (name : String) (fields : List Content)

namespace Schema

def IsUnambiguous (schema : Schema) : Prop :=
  ∀ entry ∈ schema, entry.2.IsUnambiguous

instance (schema : Schema) : Decidable schema.IsUnambiguous :=
  inferInstanceAs (Decidable (∀ entry ∈ schema, entry.2.IsUnambiguous))

mutual

/-- The written form of a value of a type. A value of another type has none. -/
def form? (schema : Schema) : Content → DataType → Option Json
  | .text content, .text => some (.text content)
  | .char value, .char => some (.text (String.singleton value))
  | .number value, .number => some (.nat value.toNat)
  | .flag value, .flag => some (.bool value)
  | .list items, .list item => .list <$> itemForms? schema items item
  | .made name contents, .declared declared => do
      let declaration ← schema.lookup declared
      let alternative ← declaration.alternatives.find? fun alternative => alternative.name == name
      declaration.form? alternative (← fieldForms? schema contents alternative.fields)
  | _, _ => none
termination_by structural content => content

def itemForms? (schema : Schema) : List Content → DataType → Option (List Json)
  | [], _ => some []
  | content :: rest, type => do
      let document ← form? schema content type
      some (document :: (← itemForms? schema rest type))
termination_by structural contents => contents

/-- The members of the fields of an alternative, in the declared order. -/
def fieldForms? (schema : Schema) : List Content → List Field → Option (List (String × Json))
  | [], [] => some []
  | content :: contents, field :: fields => do
      let document ← form? schema content field.type
      some ((field.name, document) :: (← fieldForms? schema contents fields))
  | _, _ => none
termination_by structural contents => contents

end

mutual

/-- The document describes the value, as one of a type. -/
def Describes (schema : Schema) : Content → DataType → Json → Prop
  | .text content, type, document => type = .text ∧ document = .text content
  | .char value, type, document => type = .char ∧ document = .text (String.singleton value)
  | .number value, type, document => type = .number ∧ document = .nat value.toNat
  | .flag value, type, document => type = .flag ∧ document = .bool value
  | .list items, type, document => ∃ item documents,
      type = .list item ∧ document = .list documents ∧ DescribeItems schema items item documents
  | .made name contents, type, document => ∃ declared declaration alternative members,
      type = .declared declared ∧ schema.lookup declared = some declaration ∧
        declaration.Shows document alternative members ∧ alternative.name = name ∧
        DescribeFields schema contents alternative.fields members
termination_by structural content => content

def DescribeItems (schema : Schema) : List Content → DataType → List Json → Prop
  | [], _, documents => documents = []
  | content :: rest, type, documents => ∃ document more, documents = document :: more ∧
      Describes schema content type document ∧ DescribeItems schema rest type more
termination_by structural contents => contents

/-- The members describe the values of the fields, one after the other. -/
def DescribeFields (schema : Schema) :
    List Content → List Field → List (String × Json) → Prop
  | [], fields, members => fields = [] ∧ members = []
  | content :: contents, fields, members => ∃ field otherFields document more,
      fields = field :: otherFields ∧ members = (field.name, document) :: more ∧
        Describes schema content field.type document ∧
        DescribeFields schema contents otherFields more
termination_by structural contents => contents

end

end Schema

end SpokenKeys
