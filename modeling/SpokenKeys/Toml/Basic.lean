/-!
TOML documents. Tables remember how they came to be, since that decides whether
later lines of a document may still add to them.
-/

namespace SpokenKeys

/-- How a table came to be. -/
inductive Toml.Origin where
  /-- Written in braces; nothing can be added to it. -/
  | braces
  /-- A header of its own, or the root. -/
  | header
  /-- A part of a longer header. -/
  | implied
  /-- A part of a dotted key. -/
  | dotted
deriving DecidableEq, Repr, Inhabited

/-- A TOML value. Decimals and moments are kept by their spelling, since no
setting is one. -/
inductive Toml where
  | text (content : String)
  | integer (value : Int)
  | decimal (spelling : String)
  | bool (value : Bool)
  /-- A date, a time or both. -/
  | moment (spelling : String)
  | array (items : List Toml)
  | table (origin : Toml.Origin) (members : List (String × Toml))
  /-- Tables with one header, repeated for each of them. -/
  | tables (items : List Toml)
deriving Inhabited

namespace Toml

/-- The members of a table in the order they came. -/
abbrev Members := List (String × Toml)

/-- The members with a value for a key: in the place of an earlier value, or at
the end. -/
def put (key : String) (value : Toml) : Members → Members
  | [] => [(key, value)]
  | (name, old) :: rest =>
      if name = key then (name, value) :: rest else (name, old) :: put key value rest

/-- A key with the keys of the tables around it, the outermost first. -/
structure KeyPath where
  outer : List String
  name : String
deriving DecidableEq, Repr, Inhabited

/-- The key path of several names, of which there is at least one. -/
def KeyPath.ofNames? (names : List String) : Option KeyPath :=
  names.getLast?.map fun name => ⟨names.dropLast, name⟩

def bool? : Toml → Option Bool
  | .bool value => some value
  | _ => none

def text? : Toml → Option String
  | .text content => some content
  | _ => none

/-- Whether there is nothing in an array or a table. -/
def isHollow : Toml → Bool
  | .array [] | .table _ [] => true
  | _ => false

/-- The name a value gives to one of several bare alternatives: the name itself,
or a table whose only member is that name with nothing in it. -/
def bareName? : Toml → Option String
  | .text name => some name
  | .table _ [(name, content)] => if content.isHollow then some name else none
  | _ => none

/-- The fields of a record: a table gives each by its name and an array gives
them in their order. A moment has none of them. -/
def record? (fields : List String) : Toml → Option (List (Option Toml))
  | .table _ members => some (fields.map fun field => members.lookup field)
  | .array items | .tables items => some ((List.range fields.length).map fun i => items[i]?)
  | .moment _ => some (fields.map fun _ => none)
  | _ => none

end Toml

end SpokenKeys
