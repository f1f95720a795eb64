import SpokenKeys.Toml.Number

/-!
The dates and times of TOML. A date may be followed by a time, and that by a
distance from universal time.
-/

namespace SpokenKeys.Toml

/-- The number that exactly so many digits spell, if it lies within bounds. -/
def readWithin (count low high : Nat) : Reader Nat := fun input =>
  let digits := input.take count
  let value := decimalValue digits
  if digits.length = count ∧ digits.all Char.isDigit ∧ low ≤ value ∧ value ≤ high then
    some (value, input.drop count)
  else none

def daysIn (year month : Nat) : Nat :=
  if month = 2 then
    if year % 4 = 0 ∧ (year % 100 ≠ 0 ∨ year % 400 = 0) then 29 else 28
  else if month = 4 ∨ month = 6 ∨ month = 9 ∨ month = 11 then 30
  else 31

/-- The rest after a date of the calendar. -/
def skipDate (input : List Char) : Option (List Char) := do
  let (year, rest) ← readWithin 4 0 9999 input
  let (month, rest) ← readWithin 2 1 12 (← after? '-' rest)
  let (_, rest) ← readWithin 2 1 (daysIn year month) (← after? '-' rest)
  some rest

/-- The rest after a fraction of a second, if there is one. -/
def skipFraction : List Char → List Char
  | '.' :: c :: rest => if c.isDigit then rest.dropWhile Char.isDigit else '.' :: c :: rest
  | input => input

/-- The rest after a time of the day. A minute may end with a leap second. -/
def skipTime (input : List Char) : Option (List Char) := do
  let (_, rest) ← readWithin 2 0 23 input
  let (_, rest) ← readWithin 2 0 59 (← after? ':' rest)
  let (_, rest) ← readWithin 2 0 60 (← after? ':' rest)
  some (skipFraction rest)

/-- The rest after a distance from universal time. -/
def skipOffset (input : List Char) : Option (List Char) :=
  match input with
  | 'Z' :: rest | 'z' :: rest => some rest
  | '+' :: rest | '-' :: rest => do
      let (_, rest) ← readWithin 2 0 23 rest
      let (_, rest) ← readWithin 2 0 59 (← after? ':' rest)
      some rest
  | _ => none

/-- The rest after the time that may follow a date, and its distance. -/
def skipTimeOfDate (input : List Char) : List Char :=
  match input with
  | c :: rest =>
      if c = 'T' ∨ c = 't' ∨ c = ' ' then
        match skipTime rest with
        | some rest => (skipOffset rest).getD rest
        | none => input
      else input
  | [] => []

def readMoment : Reader Toml := fun input => do
  let rest ← (skipTimeOfDate <$> skipDate input) <|> skipTime input
  some (.moment (String.ofList (input.take (input.length - rest.length))), rest)

end SpokenKeys.Toml
