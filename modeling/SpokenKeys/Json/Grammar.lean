import Mathlib.Data.List.Forall2
import SpokenKeys.Json.Basic

/-!
The grammar of JSON texts (RFC 8259), as a relation between a document and the
characters that spell it. Nothing here reads or prints: a document has many
spellings, with blanks around its marks and with escapes for its characters.
-/

namespace SpokenKeys.Json

/-- Blanks, which may stand around every value and every mark. -/
def IsBlank (text : List Char) : Prop :=
  ∀ c ∈ text, c = ' ' ∨ c = '\t' ∨ c = '\n' ∨ c = '\r'

/-- What spells something, with blanks around it. -/
def Padded (spells : List Char → Prop) (text : List Char) : Prop :=
  ∃ front body back, IsBlank front ∧ spells body ∧ IsBlank back ∧ text = front ++ body ++ back

/-! ## Texts -/

/-- A hexadecimal digit, in lower or upper case. -/
def IsHexDigit (value : Nat) (c : Char) : Prop :=
  value < 16 ∧ (c = Nat.digitChar value ∨ c = (Nat.digitChar value).toUpper)

/-- The four hexadecimal digits of a number. -/
def IsHexUnit (value : Nat) (digits : List Char) : Prop :=
  ∃ values, List.Forall₂ IsHexDigit values digits ∧ values.length = 4 ∧
    value = values.foldl (fun sum digit => 16 * sum + digit) 0

/-- The letters that stand for a character after a backslash. -/
def shortEscapes : List (Char × Char) := [
  ('"', '"'), ('\\', '\\'), ('/', '/'), ('b', '\x08'), ('f', '\x0c'), ('n', '\n'),
  ('r', '\r'), ('t', '\t')]

/-- What may stand for a character inside a text. -/
inductive SpellsChar : Char → List Char → Prop
  /-- The character itself. -/
  | plain {c : Char} (hquote : c ≠ '"') (hbackslash : c ≠ '\\') (hcontrol : 0x20 ≤ c.toNat) :
      SpellsChar c [c]
  /-- A backslash and a letter. -/
  | short {letter c : Char} (h : (letter, c) ∈ shortEscapes) : SpellsChar c ['\\', letter]
  /-- The four digits of the character's number. -/
  | unit {c : Char} {digits : List Char} (h : IsHexUnit c.toNat digits) :
      SpellsChar c ('\\' :: 'u' :: digits)
  /-- The four digits of a high and of a low surrogate, for a number of more digits. -/
  | pair {c : Char} {high low : Nat} {first second : List Char}
      (hfirst : IsHexUnit high first) (hsecond : IsHexUnit low second)
      (hhigh : 0xD800 ≤ high ∧ high < 0xDC00) (hlow : 0xDC00 ≤ low ∧ low < 0xE000)
      (hvalue : c.toNat = 0x10000 + (high - 0xD800) * 0x400 + (low - 0xDC00)) :
      SpellsChar c ('\\' :: 'u' :: first ++ '\\' :: 'u' :: second)

/-- What may stand for several characters inside a text. -/
inductive SpellsChars : List Char → List Char → Prop
  | nil : SpellsChars [] []
  | cons {c : Char} {content front back : List Char} (hc : SpellsChar c front)
      (hcontent : SpellsChars content back) : SpellsChars (c :: content) (front ++ back)

/-- A text between its quotes. -/
def SpellsText (content : String) (text : List Char) : Prop :=
  ∃ inner, SpellsChars content.toList inner ∧ text = '"' :: (inner ++ ['"'])

/-! ## Numbers -/

def IsDigits (text : List Char) : Prop :=
  text ≠ [] ∧ ∀ c ∈ text, c.isDigit = true

/-- The parts of a number as it is spelled. -/
structure NumberText where
  negative : Bool
  digits : List Char
  decimals : List Char
  exponent : List Char
  isDigits : IsDigits digits
  /-- Only a zero that stands alone is in front. -/
  leads : digits.head? = some '0' → digits = ['0']
  isDecimals : decimals = [] ∨ ∃ places, IsDigits places ∧ decimals = '.' :: places
  isExponent : exponent = [] ∨ ∃ letter sign places, (letter = 'e' ∨ letter = 'E') ∧
    (sign = [] ∨ sign = ['+'] ∨ sign = ['-']) ∧ IsDigits places ∧
    exponent = letter :: (sign ++ places)

namespace NumberText

def sign (number : NumberText) : List Char := if number.negative then ['-'] else []

def chars (number : NumberText) : List Char :=
  number.sign ++ number.digits ++ number.decimals ++ number.exponent

/-- The whole number that the parts give, if they have neither fraction nor exponent
and are not a negative zero. -/
def whole? (number : NumberText) : Option Int :=
  let size := Nat.ofDigitChars 10 number.digits 0
  if number.decimals = [] ∧ number.exponent = [] ∧ ¬ (number.negative = true ∧ size = 0) then
    some (if number.negative then -(size : Int) else size)
  else none

/-- The document of a number. -/
def document (number : NumberText) : Json :=
  match number.whole? with
  | some value => .whole value
  | none => .fraction (String.ofList number.chars)

end NumberText

/-! ## Documents -/

mutual

/-- The characters spell the document, with no blanks around them. -/
def SpellsValue : Json → List Char → Prop
  | .null, chars => chars = ['n', 'u', 'l', 'l']
  | .bool true, chars => chars = ['t', 'r', 'u', 'e']
  | .bool false, chars => chars = ['f', 'a', 'l', 's', 'e']
  | .whole value, chars =>
      ∃ number : NumberText, number.document = .whole value ∧ chars = number.chars
  | .fraction spelling, chars =>
      ∃ number : NumberText, number.document = .fraction spelling ∧ chars = number.chars
  | .text content, chars => SpellsText content chars
  | .list items, chars => ∃ inner, SpellsItems items inner ∧ chars = '[' :: (inner ++ [']'])
  | .object members, chars =>
      ∃ inner, SpellsMembers members inner ∧ chars = '{' :: (inner ++ ['}'])
termination_by structural document => document

/-- The characters between the brackets of a list. -/
def SpellsItems : List Json → List Char → Prop
  | [], chars => IsBlank chars
  | item :: more, chars => ∃ front back,
      Padded (SpellsValue item) front ∧ SpellsMoreItems more back ∧ chars = front ++ back
termination_by structural items => items

/-- The items after the first, each behind a comma. -/
def SpellsMoreItems : List Json → List Char → Prop
  | [], chars => chars = []
  | item :: more, chars => ∃ front back,
      Padded (SpellsValue item) front ∧ SpellsMoreItems more back ∧ chars = ',' :: (front ++ back)
termination_by structural items => items

/-- The characters between the braces of an object. -/
def SpellsMembers : List (String × Json) → List Char → Prop
  | [], chars => IsBlank chars
  | member :: more, chars => ∃ front back,
      SpellsMember member front ∧ SpellsMoreMembers more back ∧ chars = front ++ back
termination_by structural members => members

/-- The members after the first, each behind a comma. -/
def SpellsMoreMembers : List (String × Json) → List Char → Prop
  | [], chars => chars = []
  | member :: more, chars => ∃ front back,
      SpellsMember member front ∧ SpellsMoreMembers more back ∧ chars = ',' :: (front ++ back)
termination_by structural members => members

/-- A member: its name, a colon, its value. -/
def SpellsMember : String × Json → List Char → Prop
  | (name, value), chars => ∃ named valued,
      Padded (SpellsText name) named ∧ Padded (SpellsValue value) valued ∧
        chars = named ++ ':' :: valued
termination_by structural member => member

end

/-- The text spells the document and nothing else. -/
def Spells (document : Json) (text : String) : Prop := Padded (SpellsValue document) text.toList

end SpokenKeys.Json
