import SpokenKeys.Toml.Basic

/-!
Building up tables from headers and keys. A key is given once; a table has one
header at most; a dotted key only adds to tables that dotted keys have made; and
a table in braces is complete as it stands.
-/

namespace SpokenKeys.Toml

def alterLast (change : Toml → Option Toml) (items : List Toml) : Option (List Toml) := do
  let last ← items.getLast?
  some (items.dropLast ++ [← change last])

def alterMembers (change : Members → Option Members) : Toml → Option Toml
  | .table origin members => .table origin <$> change members
  | _ => none

/-- The members with a value under a dotted key. The table that receives the
value was made by dotted keys, or it is the one that the members belong to. -/
def assign (value : Toml) (name : String) : List String → Members → Option Members
  | [], members =>
      match members.lookup name with
      | some _ => none
      | none => some (members ++ [(name, value)])
  | step :: rest, members =>
      match members.lookup step with
      | none => do some (members ++ [(step, .table .dotted (← assign value name rest []))])
      | some (.table .dotted inner) => do
          some (put step (.table .dotted (← assign value name rest inner)) members)
      | some (.table .implied inner) =>
          if rest.isEmpty then none
          else do some (put step (.table .implied (← assign value name rest inner)) members)
      | some (.tables items) =>
          if rest.isEmpty then none
          else do
            let items ← alterLast (alterMembers (assign value name rest)) items
            some (put step (.tables items) members)
      | some _ => none

/-- The table in braces that several keys and values make. -/
def inBraces (entries : List (KeyPath × Toml)) : Option Toml :=
  .table .braces <$> entries.foldlM (fun members (key, value) =>
    assign value key.name key.outer members) []

/-- Changes what is under the name of a header. The tables around it are made if
they are missing; of repeated tables the last one is meant. -/
def alter (change : Option Toml → Option Toml) (name : String) :
    List String → Members → Option Members
  | [], members => do some (put name (← change (members.lookup name)) members)
  | step :: rest, members =>
      match members.lookup step with
      | none => do some (put step (.table .implied (← alter change name rest [])) members)
      | some (.table .braces _) => none
      | some (.table origin inner) => do
          some (put step (.table origin (← alter change name rest inner)) members)
      | some (.tables items) => do
          let items ← alterLast (alterMembers (alter change name rest)) items
          some (put step (.tables items) members)
      | some _ => none

/-- What a header makes of what was under its name: a table that only longer
headers have mentioned goes on. -/
def openTable : Option Toml → Option Toml
  | none => some (.table .header [])
  | some (.table .implied members) => some (.table .header members)
  | some _ => none

/-- What a repeated header makes of what was under its name. -/
def openElement : Option Toml → Option Toml
  | none => some (.tables [.table .header []])
  | some (.tables items) => some (.tables (items ++ [.table .header []]))
  | some _ => none

/-- One statement of a document. -/
inductive Statement where
  /-- The header of a table. -/
  | table (key : KeyPath)
  /-- The repeated header of one of several tables. -/
  | element (key : KeyPath)
  /-- A key of the current table, and its value. -/
  | entry (key : KeyPath) (value : Toml)

/-- A document under construction. -/
structure Draft where
  root : Members := []
  /-- The header that is in force. -/
  header? : Option KeyPath := none

namespace Draft

/-- Adds a value to the table whose header is in force. -/
def addEntry (draft : Draft) (key : KeyPath) (value : Toml) : Option Draft := do
  let add := assign value key.name key.outer
  let root ← match draft.header? with
    | none => add draft.root
    | some header => alter (fun
        | some (.tables items) => .tables <$> alterLast (alterMembers add) items
        | some current => alterMembers add current
        | none => none) header.name header.outer draft.root
  some { draft with root }

/-- The draft after one more statement. -/
def extend (draft : Draft) : Statement → Option Draft
  | .table key => do some ⟨← alter openTable key.name key.outer draft.root, some key⟩
  | .element key => do some ⟨← alter openElement key.name key.outer draft.root, some key⟩
  | .entry key value => draft.addEntry key value

end Draft

/-- The root table of the statements of a document. -/
def ofStatements (statements : List Statement) : Option Toml := do
  let draft ← statements.foldlM Draft.extend {}
  some (.table .header draft.root)

end SpokenKeys.Toml
