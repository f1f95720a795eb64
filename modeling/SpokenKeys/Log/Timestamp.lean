/-!
Points in time and their text: RFC 3339 in UTC with milliseconds. Days are
turned into dates by the proleptic Gregorian calendar.
-/

namespace SpokenKeys.Log

/-- Milliseconds since the beginning of 1970, UTC. -/
structure Timestamp where
  millis : Int
deriving DecidableEq, Repr, Inhabited

namespace Timestamp

/-- The year, month and day of a number of days since the beginning of 1970.
Years begin in March here, so that a leap day is the last of its year, and go
in eras of four hundred. -/
def dateOfDays (days : Int) : Int × Nat × Nat :=
  let sinceEra := days + 719468
  let era := sinceEra.fdiv 146097
  let dayOfEra := (sinceEra.fmod 146097).toNat
  let yearOfEra :=
    (dayOfEra - dayOfEra / 1460 + dayOfEra / 36524 - dayOfEra / 146096) / 365
  let dayOfYear := dayOfEra - (365 * yearOfEra + yearOfEra / 4 - yearOfEra / 100)
  let marchMonth := (5 * dayOfYear + 2) / 153
  let day := dayOfYear - (153 * marchMonth + 2) / 5 + 1
  let month := if marchMonth < 10 then marchMonth + 3 else marchMonth - 9
  let year := era * 400 + yearOfEra + (if month ≤ 2 then 1 else 0)
  (year, month, day)

/-- A number with zeros in front up to a width. -/
def padded (width n : Nat) : String :=
  let digits := toString n
  String.ofList (List.replicate (width - digits.length) '0') ++ digits

/-- A year: four digits, and a sign before it outside of 0 to 9999. -/
def yearText (year : Int) : String :=
  if 0 ≤ year ∧ year ≤ 9999 then padded 4 year.toNat
  else (if year < 0 then "-" else "+") ++ padded 4 year.natAbs

def text (time : Timestamp) : String :=
  let (year, month, day) := dateOfDays (time.millis.fdiv 86400000)
  let millis := (time.millis.fmod 86400000).toNat
  let date := yearText year ++ "-" ++ padded 2 month ++ "-" ++ padded 2 day
  let clock := padded 2 (millis / 3600000) ++ ":" ++ padded 2 (millis / 60000 % 60) ++ ":" ++
    padded 2 (millis / 1000 % 60) ++ "." ++ padded 3 (millis % 1000)
  date ++ "T" ++ clock ++ "Z"

end Timestamp

end SpokenKeys.Log
