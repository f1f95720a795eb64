/-!
JSON documents. Whole numbers are kept as numbers and every other number by its
spelling, since nothing in this library computes with fractions. An object is
the list of its members in order.
-/

namespace SpokenKeys

/-- A JSON document. -/
inductive Json where
  | null
  | bool (value : Bool)
  | whole (value : Int)
  | fraction (spelling : String)
  | text (content : String)
  | list (items : List Json)
  | object (members : List (String × Json))
deriving Inhabited

namespace Json

def text? : Json → Option String
  | .text content => some content
  | _ => none

def bool? : Json → Option Bool
  | .bool value => some value
  | _ => none

def list? : Json → Option (List Json)
  | .list items => some items
  | _ => none

/-- The natural number below 2^64 a document holds, if it is one. -/
def word? : Json → Option Nat
  | .whole (.ofNat n) => if n < UInt64.size then some n else none
  | _ => none

/-- The document's single character, if it is a text of one character. -/
def char? : Json → Option Char
  | .text content =>
      match content.toList with
      | [c] => some c
      | _ => none
  | _ => none

/-- The value of a key among members; of a repeated key the last one counts. -/
def lookup (key : String) : List (String × Json) → Option Json
  | [] => none
  | (name, value) :: rest =>
      match lookup key rest with
      | some later => some later
      | none => if name = key then some value else none

/-- The value of a key of an object. -/
def field? (document : Json) (key : String) : Option Json :=
  match document with
  | .object members => lookup key members
  | _ => none

mutual

/-- Number of nodes of a document, which bounds its nesting. -/
def size : Json → Nat
  | .list items => 1 + sizeItems items
  | .object members => 1 + sizeMembers members
  | .null | .bool _ | .whole _ | .fraction _ | .text _ => 1
termination_by structural document => document

def sizeItems : List Json → Nat
  | [] => 0
  | item :: rest => size item + sizeItems rest
termination_by structural items => items

/-- Number of nodes of the values of several members. -/
def sizeMembers : List (String × Json) → Nat
  | [] => 0
  | member :: rest => sizeMember member + sizeMembers rest
termination_by structural members => members

def sizeMember : String × Json → Nat
  | (_, value) => size value
termination_by structural member => member

end

mutual

/-- How deep lists and objects stand in one another in a document. -/
def depth : Json → Nat
  | .list items => 1 + depthItems items
  | .object members => 1 + depthMembers members
  | .null | .bool _ | .whole _ | .fraction _ | .text _ => 0
termination_by structural document => document

/-- The depth of the deepest of several documents. -/
def depthItems : List Json → Nat
  | [] => 0
  | item :: rest => max (depth item) (depthItems rest)
termination_by structural items => items

/-- The depth of the deepest value of several members. -/
def depthMembers : List (String × Json) → Nat
  | [] => 0
  | member :: rest => max (depthMember member) (depthMembers rest)
termination_by structural members => members

def depthMember : String × Json → Nat
  | (_, value) => depth value
termination_by structural member => member

end

def nat (n : Nat) : Json := .whole n

/-- A record read from a document: an object gives each field by its name, a
list gives the fields in their order and has no item left over. -/
def record? (fields : List String) : Json → Option (List (Option Json))
  | .object members => some (fields.map (lookup · members))
  | .list items =>
      if items.length ≤ fields.length then
        some (items.map some ++ List.replicate (fields.length - items.length) none)
      else none
  | _ => none

/-- The name a document gives to one of several bare alternatives: the name
itself, or an object whose only member is that name with nothing in it. -/
def bareName? : Json → Option String
  | .text name => some name
  | .object [(name, .null)] => some name
  | _ => none

end Json

end SpokenKeys
