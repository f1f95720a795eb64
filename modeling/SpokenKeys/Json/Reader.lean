import SpokenKeys.Json.Basic
import SpokenKeys.Text.Hex

/-!
Reading JSON by its grammar. Each reader takes the characters still to be read
and returns what it found with those that follow; nesting and length are bounded
by a fuel that the length of the text covers.
-/

namespace SpokenKeys.Json

def isSpace (c : Char) : Bool :=
  c == ' ' || c == '\t' || c == '\n' || c == '\r'

def skipSpace (input : List Char) : List Char := input.dropWhile isSpace

/-- The number spelled by four hexadecimal digits. -/
def hex4? : List Char → Option (Nat × List Char)
  | a :: b :: c :: d :: rest => (·, rest) <$> Text.hexNumber? [a, b, c, d]
  | _ => none

/-- The character after an escape's `u`: one unit of four digits, or a high
surrogate followed by the escape of a low one. -/
def unicodeEscape? (input : List Char) : Option (Char × List Char) := do
  let (unit, rest) ← hex4? input
  if 0xD800 ≤ unit ∧ unit < 0xDC00 then
    match rest with
    | '\\' :: 'u' :: rest =>
        let (low, rest) ← hex4? rest
        if 0xDC00 ≤ low ∧ low < 0xE000 then
          some (Char.ofNat (0x10000 + (unit - 0xD800) * 0x400 + (low - 0xDC00)), rest)
        else none
    | _ => none
  else (·, rest) <$> Text.scalar? unit

/-- The character after a backslash. -/
def unescape? : List Char → Option (Char × List Char)
  | '"' :: rest => some ('"', rest)
  | '\\' :: rest => some ('\\', rest)
  | '/' :: rest => some ('/', rest)
  | 'b' :: rest => some ('\x08', rest)
  | 'f' :: rest => some ('\x0c', rest)
  | 'n' :: rest => some ('\n', rest)
  | 'r' :: rest => some ('\r', rest)
  | 't' :: rest => some ('\t', rest)
  | 'u' :: rest => unicodeEscape? rest
  | _ => none

/-- The content of a text up to its closing quote, the opening one being read. -/
def readText : Nat → List Char → Option (List Char × List Char)
  | 0, _ => none
  | _, [] => none
  | _ + 1, '"' :: rest => some ([], rest)
  | fuel + 1, '\\' :: rest => do
      let (c, rest) ← unescape? rest
      let (content, rest) ← readText fuel rest
      some (c :: content, rest)
  | fuel + 1, c :: rest =>
      if c.toNat < 0x20 then none
      else do
        let (content, rest) ← readText fuel rest
        some (c :: content, rest)

def digitsValue (digits : List Char) : Nat :=
  Nat.ofDigitChars 10 digits 0

/-- Digits without a superfluous leading zero. -/
def isPlainDigits : List Char → Bool
  | [] => false
  | ['0'] => true
  | '0' :: _ => false
  | _ => true

def readFraction : List Char → Option (List Char × List Char)
  | '.' :: rest =>
      let digits := rest.takeWhile Char.isDigit
      if digits.isEmpty then none
      else some ('.' :: digits, rest.dropWhile Char.isDigit)
  | input => some ([], input)

def readExponent : List Char → Option (List Char × List Char)
  | [] => some ([], [])
  | letter :: rest =>
      if letter = 'e' ∨ letter = 'E' then
        let sign := rest.take 1 |>.filter fun c => c == '+' || c == '-'
        let rest := rest.drop sign.length
        let digits := rest.takeWhile Char.isDigit
        if digits.isEmpty then none
        else some (letter :: sign ++ digits, rest.dropWhile Char.isDigit)
      else some ([], letter :: rest)

/-- A number. It is whole when it has neither fraction nor exponent and is not
a negative zero. -/
def readNumber (input : List Char) : Option (Json × List Char) := do
  let sign := input.take 1 |>.filter (· == '-')
  let input := input.drop sign.length
  let digits := input.takeWhile Char.isDigit
  if isPlainDigits digits then
    let (decimals, rest) ← readFraction (input.dropWhile Char.isDigit)
    let (exponent, rest) ← readExponent rest
    let value := digitsValue digits
    if decimals.isEmpty && exponent.isEmpty && !(value == 0 && !sign.isEmpty) then
      some (.whole (if sign.isEmpty then Int.ofNat value else -Int.ofNat value), rest)
    else some (.fraction (String.ofList (sign ++ digits ++ decimals ++ exponent)), rest)
  else none

mutual

/-- A document, after any space. -/
def readValue : Nat → List Char → Option (Json × List Char)
  | 0, _ => none
  | fuel + 1, input =>
      match skipSpace input with
      | 'n' :: 'u' :: 'l' :: 'l' :: rest => some (.null, rest)
      | 't' :: 'r' :: 'u' :: 'e' :: rest => some (.bool true, rest)
      | 'f' :: 'a' :: 'l' :: 's' :: 'e' :: rest => some (.bool false, rest)
      | '"' :: rest => do
          let (content, rest) ← readText fuel rest
          some (.text (String.ofList content), rest)
      | '[' :: rest =>
          match skipSpace rest with
          | ']' :: rest => some (.list [], rest)
          | rest => do
              let (items, rest) ← readItems fuel rest
              some (.list items, rest)
      | '{' :: rest =>
          match skipSpace rest with
          | '}' :: rest => some (.object [], rest)
          | rest => do
              let (members, rest) ← readMembers fuel rest
              some (.object members, rest)
      | input => readNumber input

/-- The items of a list, at least one, up to its closing bracket. -/
def readItems : Nat → List Char → Option (List Json × List Char)
  | 0, _ => none
  | fuel + 1, input => do
      let (item, rest) ← readValue fuel input
      match skipSpace rest with
      | ']' :: rest => some ([item], rest)
      | ',' :: rest => do
          let (items, rest) ← readItems fuel rest
          some (item :: items, rest)
      | _ => none

/-- The members of an object, at least one, up to its closing brace. -/
def readMembers : Nat → List Char → Option (List (String × Json) × List Char)
  | 0, _ => none
  | fuel + 1, input =>
      match skipSpace input with
      | '"' :: rest => do
          let (name, rest) ← readText fuel rest
          match skipSpace rest with
          | ':' :: rest => do
              let (value, rest) ← readValue fuel rest
              let member := (String.ofList name, value)
              match skipSpace rest with
              | '}' :: rest => some ([member], rest)
              | ',' :: rest => do
                  let (members, rest) ← readMembers fuel rest
                  some (member :: members, rest)
              | _ => none
          | _ => none
      | _ => none

end

/-- The document a text spells, with nothing but space around it. -/
def read? (input : List Char) : Option Json := do
  let (document, rest) ← readValue (2 * input.length + 2) input
  if (skipSpace rest).isEmpty then some document else none

def parse? (input : String) : Option Json := read? input.toList

end SpokenKeys.Json
