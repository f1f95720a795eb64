import SpokenKeys.Text.CaseTable

/-!
Upper and lower case, character by character, by the full case mappings of
Unicode. ASCII has its own short rule, which the tables repeat.
-/

namespace SpokenKeys.Text

/-- The case form that a table of runs and expansions gives a character; the
character itself where the table is silent. -/
def mapCase (runs : List CaseRun) (expansions : List (Nat × List Nat)) (c : Char) : List Char :=
  match expansions.lookup c.toNat with
  | some codes => codes.map Char.ofNat
  | none =>
      match runs.find? (·.covers c.toNat) with
      | some run => [Char.ofNat (c.toNat + run.shift).toNat]
      | none => [c]

/-- The upper-case form of a character, which may have several characters. -/
def upper (c : Char) : List Char :=
  if c.toNat < 128 then [c.toUpper] else mapCase upperRuns upperExpansions c

/-- The lower-case form of a character, which may have several characters. -/
def lower (c : Char) : List Char :=
  if c.toNat < 128 then [c.toLower] else mapCase lowerRuns lowerExpansions c

/-- The lower-case form of a text, character by character. A sigma at the end of a word
gets no form of its own: nothing that lower-case forms are compared with has Greek letters. -/
def lowercase (text : String) : String :=
  String.ofList (text.toList.flatMap lower)

/-- The first character in upper case and the others in lower case. -/
def capitalizeChars : List Char → List Char
  | [] => []
  | first :: rest => upper first ++ rest.flatMap lower

/-- A word with its first character in upper case and the others in lower case. -/
def capitalize (word : String) : String :=
  String.ofList (capitalizeChars word.toList)

end SpokenKeys.Text
