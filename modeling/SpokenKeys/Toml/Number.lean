import SpokenKeys.Toml.Basic
import SpokenKeys.Toml.Text

/-!
The numbers of TOML: integers in four bases that fit 64 bits with a sign, and
decimals that a double can hold. Underscores may stand between digits.
-/

namespace SpokenKeys.Toml

/-- The digits after the first one, where an underscore may stand before each. -/
def moreDigits (isDigit : Char → Bool) : List Char → List Char × List Char
  | [] => ([], [])
  | '_' :: c :: rest =>
      if isDigit c then before c (moreDigits isDigit rest) else ([], '_' :: c :: rest)
  | c :: rest =>
      if isDigit c then before c (moreDigits isDigit rest) else ([], c :: rest)

def readDigits (isDigit : Char → Bool) : Reader (List Char)
  | [] => none
  | c :: rest => if isDigit c then some (before c (moreDigits isDigit rest)) else none

def sign : List Char → List Char × List Char
  | '+' :: rest => (['+'], rest)
  | '-' :: rest => (['-'], rest)
  | input => ([], input)

/-- A run of decimal digits with no zero in front of others, and its sign. -/
def readSigned : Reader (List Char × List Char) := fun input => do
  let (sign, rest) := sign input
  match rest with
  | '0' :: rest => some ((sign, ['0']), rest)
  | rest => do
      let (digits, rest) ← readDigits Char.isDigit rest
      some ((sign, digits), rest)

def decimalValue (digits : List Char) : Nat := Nat.ofDigitChars 10 digits 0

/-- An integer that fits 64 bits with a sign. -/
def integerOf? (value : Int) : Option Toml :=
  if Int64.minValue.toInt ≤ value ∧ value ≤ Int64.maxValue.toInt then some (.integer value) else none

/-- The digits of a base. -/
def isDigitOf (base : Nat) (c : Char) : Bool :=
  match Text.hexValue? c with
  | some value => value < base
  | none => false

/-- An integer in a base other than ten, after its mark. -/
def readBased (base : Nat) : Reader Toml := fun input => do
  let (digits, rest) ← readDigits (isDigitOf base) input
  let value := digits.foldl (fun value c => value * base + (Text.hexValue? c).getD 0) 0
  (·, rest) <$> integerOf? value

/-- An integer. Those in other bases have no sign. -/
def readInteger : Reader Toml := fun input =>
  match input with
  | '0' :: 'x' :: rest => readBased 16 rest
  | '0' :: 'o' :: rest => readBased 8 rest
  | '0' :: 'b' :: rest => readBased 2 rest
  | _ => do
      let ((sign, digits), rest) ← readSigned input
      let value : Int := decimalValue digits
      (·, rest) <$> integerOf? (if sign = ['-'] then -value else value)

/-- The digits after a point, or nothing. -/
def readFraction : Reader (List Char)
  | '.' :: rest => readDigits Char.isDigit rest
  | input => some ([], input)

/-- The digits of an exponent with its sign, or nothing. -/
def readExponent : Reader (List Char × List Char)
  | [] => some (([], []), [])
  | c :: rest =>
      if c = 'e' ∨ c = 'E' then do
        let (sign, rest) := sign rest
        let (digits, rest) ← readDigits Char.isDigit rest
        some ((sign, digits), rest)
      else some (([], []), c :: rest)

/-- The least number that no double is nearest to: half a step above the largest
double. -/
def doubleBound : Nat := Nat.pow 2 1024 - Nat.pow 2 970

/-- Whether a mantissa with a power of ten is too large for a double. Its number
of digits decides, except close to the bound. -/
def exceedsDouble (mantissa : Nat) (exponent : Int) : Bool :=
  let magnitude := (Nat.toDigits 10 mantissa).length + exponent
  if mantissa = 0 ∨ magnitude < 300 then false
  else if 320 < magnitude then true
  else if 0 ≤ exponent then doubleBound ≤ mantissa * Nat.pow 10 exponent.toNat
  else doubleBound * Nat.pow 10 exponent.natAbs ≤ mantissa

/-- A decimal: digits with a fraction, an exponent or both. A positive one must
not be too large for a double. -/
def readDecimal : Reader Toml := fun input => do
  let ((sign, whole), rest) ← readSigned input
  let (places, rest) ← readFraction rest
  let ((exponentSign, exponentDigits), rest) ← readExponent rest
  if places.isEmpty && exponentDigits.isEmpty then none
  else
    let power : Int := decimalValue exponentDigits
    let exponent := (if exponentSign = ['-'] then -power else power) - places.length
    if sign ≠ ['-'] && exceedsDouble (decimalValue (whole ++ places)) exponent then none
    else some (.decimal (String.ofList (input.take (input.length - rest.length))), rest)

/-- Infinity or no number at all, with or without a sign. -/
def readSpecial : Reader Toml := fun input =>
  let (sign, rest) := sign input
  match rest with
  | 'i' :: 'n' :: 'f' :: rest => some (.decimal (String.ofList (sign ++ "inf".toList)), rest)
  | 'n' :: 'a' :: 'n' :: rest => some (.decimal (String.ofList (sign ++ "nan".toList)), rest)
  | _ => none

def readNumber : Reader Toml := fun input =>
  readDecimal input <|> readSpecial input <|> readInteger input

end SpokenKeys.Toml
