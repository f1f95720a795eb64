import SpokenKeys.Json.Basic

/-!
The compact written form of a JSON document: no blanks, members in order. In a
text only the quote, the backslash and the characters below U+0020 are escaped.
-/

namespace SpokenKeys.Json

def hexDigit (n : Nat) : Char := Nat.digitChar n

/-- One character as it stands inside a written text. -/
def escape (c : Char) : List Char :=
  match c with
  | '"' => ['\\', '"']
  | '\\' => ['\\', '\\']
  | '\x08' => ['\\', 'b']
  | '\t' => ['\\', 't']
  | '\n' => ['\\', 'n']
  | '\x0c' => ['\\', 'f']
  | '\r' => ['\\', 'r']
  | c =>
      if c.toNat < 0x20 then
        ['\\', 'u', '0', '0', hexDigit (c.toNat / 16), hexDigit (c.toNat % 16)]
      else [c]

def quote (content : List Char) : List Char :=
  '"' :: (content.flatMap escape ++ ['"'])

def digits (n : Nat) : List Char := Nat.toDigits 10 n

/-- A whole number with its sign. -/
def wholeChars : Int → List Char
  | .ofNat n => digits n
  | .negSucc n => '-' :: digits (n + 1)

mutual

/-- The written form of a document. -/
def chars : Json → List Char
  | .null => "null".toList
  | .bool true => "true".toList
  | .bool false => "false".toList
  | .whole value => wholeChars value
  | .fraction spelling => spelling.toList
  | .text content => quote content.toList
  | .list items => '[' :: itemsChars items
  | .object members => '{' :: membersChars members
termination_by structural document => document

/-- The items of a list and its closing bracket. -/
def itemsChars : List Json → List Char
  | [] => [']']
  | item :: rest => item.chars ++ moreItemsChars rest
termination_by structural items => items

/-- The items after the first, each behind a comma, and the closing bracket. -/
def moreItemsChars : List Json → List Char
  | [] => [']']
  | item :: rest => ',' :: (item.chars ++ moreItemsChars rest)
termination_by structural items => items

/-- The members of an object and its closing brace. -/
def membersChars : List (String × Json) → List Char
  | [] => ['}']
  | member :: rest => memberChars member ++ moreMembersChars rest
termination_by structural members => members

/-- The members after the first, each behind a comma, and the closing brace. -/
def moreMembersChars : List (String × Json) → List Char
  | [] => ['}']
  | member :: rest => ',' :: (memberChars member ++ moreMembersChars rest)
termination_by structural members => members

/-- A member: its name, a colon, its value. -/
def memberChars : String × Json → List Char
  | (name, value) => quote name.toList ++ ':' :: value.chars
termination_by structural member => member

end

def print (document : Json) : String := String.ofList document.chars

end SpokenKeys.Json
