/-!
Spoken numbers, without any grammar or vocabulary: how a number is spelled in words, and
what words are worth when they are read from left to right.
-/

namespace SpokenKeys.Numeral

/-- What single words are worth. The homophones of two and four come last, so that they
spell no number. -/
def wordValues : List (String × Nat) := [
  ("zero", 0), ("one", 1), ("two", 2), ("three", 3), ("four", 4), ("five", 5), ("six", 6),
  ("seven", 7), ("eight", 8), ("nine", 9), ("ten", 10), ("eleven", 11), ("twelve", 12),
  ("thirteen", 13), ("fourteen", 14), ("fifteen", 15), ("sixteen", 16), ("seventeen", 17),
  ("eighteen", 18), ("nineteen", 19), ("twenty", 20), ("thirty", 30), ("forty", 40),
  ("fifty", 50), ("sixty", 60), ("seventy", 70), ("eighty", 80), ("ninety", 90),
  ("to", 2), ("for", 4)]

/-- The word that is worth a number, if there is one. -/
def wordFor (n : Nat) : String :=
  ((wordValues.find? fun entry => entry.2 == n).map Prod.fst).getD ""

/-- The words for a number below one hundred; nothing for zero. -/
def spellPair (n : Nat) : List String :=
  if n = 0 then []
  else if n < 20 then [wordFor n]
  else if n % 10 = 0 then [wordFor n]
  else [wordFor (n / 10 * 10), wordFor (n % 10)]

/-- The words for a number below one thousand; nothing for zero. -/
def spellGroup (n : Nat) : List String :=
  if n < 100 then spellPair n
  else wordFor (n / 100) :: "hundred" :: spellPair (n % 100)

/-- The words for a group with its scale word; nothing for an empty group. -/
def spellScaled (n : Nat) (scale : String) : List String :=
  if n = 0 then [] else spellGroup n ++ [scale]

/-- The words for a number below a million millions. -/
def spell (n : Nat) : List String :=
  if n = 0 then ["zero"]
  else
    spellScaled (n / 1000000000) "billion" ++
      spellScaled (n / 1000000 % 1000) "million" ++
      spellScaled (n / 1000 % 1000) "thousand" ++
      spellGroup (n % 1000)

/-- What has been read of a number: the finished groups, and the current one. -/
structure Reading where
  total : Nat := 0
  current : Nat := 0
deriving DecidableEq, Repr

namespace Reading

/-- The factor of a scale word. -/
def scale? (word : String) : Option Nat :=
  [("thousand", 1000), ("million", 1000000), ("billion", 1000000000)].lookup word

/-- The reading after one more word. A number word adds to the current group,
"hundred" multiplies it, and a scale word finishes it. -/
def step (reading : Reading) (word : String) : Reading :=
  if word = "hundred" then { reading with current := reading.current * 100 }
  else
    match scale? word with
    | some scale => { total := reading.total + reading.current * scale, current := 0 }
    | none => { reading with current := reading.current + (wordValues.lookup word).getD 0 }

/-- What has been read so far. -/
def value (reading : Reading) : Nat := reading.total + reading.current

end Reading

/-- What words are worth, read from left to right. -/
def value (words : List String) : Nat := (words.foldl Reading.step {}).value

end SpokenKeys.Numeral
