import SpokenKeys.Toml.Moment
import SpokenKeys.Toml.Table

/-!
Reading TOML documents. Values nest to a limited depth, which bounds the
recursion; lists and lines are bounded by the length of what is left to read.
-/

namespace SpokenKeys.Toml

/-- Most names in a key, and most arrays and tables within each other. -/
def depthLimit : Nat := 79

/-- The rest after blanks, ends of lines and comments. The flag says that a
comment is being read. -/
def skipLines : Bool → List Char → Option (List Char)
  | _, [] => some []
  | _, '\n' :: rest => skipLines false rest
  | _, '\r' :: '\n' :: rest => skipLines false rest
  | true, c :: rest => if isPlain c then skipLines true rest else none
  | false, c :: rest =>
      if isBlank c then skipLines false rest
      else if c = '#' then skipLines true rest
      else some (c :: rest)

/-- The rest after the end of a line: blanks, a comment, and an end of line
unless the document ends there. -/
def skipLineEnd (input : List Char) : Option (List Char) :=
  let rest := match skipBlanks input with
    | '#' :: rest => rest.dropWhile isPlain
    | rest => rest
  if rest.isEmpty then some [] else newline? rest

def readKey : Reader KeyPath := fun input => do
  let (names, rest) ← readNames depthLimit input
  some (← KeyPath.ofNames? names, rest)

/-- The items of an array up to its closing bracket. A comma may follow the last
one. The first argument bounds their number. -/
def readItems (readItem : Reader Toml) : Nat → Reader (List Toml)
  | 0, _ => none
  | bound + 1, input => do
      match ← skipLines false input with
      | ']' :: rest => some ([], rest)
      | rest =>
          let (item, rest) ← readItem rest
          match ← skipLines false rest with
          | ']' :: rest => some ([item], rest)
          | ',' :: rest => do
              let (items, rest) ← readItems readItem bound rest
              some (item :: items, rest)
          | _ => none

/-- The keys and values of a table in braces, at least one, up to the closing
brace. The first argument bounds their number. -/
def readEntries (readItem : Reader Toml) : Nat → Reader (List (KeyPath × Toml))
  | 0, _ => none
  | bound + 1, input => do
      let (key, rest) ← readKey input
      let (value, rest) ← readItem (skipBlanks (← after? '=' rest))
      match skipBlanks rest with
      | '\x7d' :: rest => some ([(key, value)], rest)
      | ',' :: rest => do
          let (entries, rest) ← readEntries readItem bound rest
          some ((key, value) :: entries, rest)
      | _ => none

/-- A value that holds no others. -/
def readScalar : Reader Toml := fun input =>
  match input with
  | '"' :: _ | '\'' :: _ => (fun (content, rest) => (.text content, rest)) <$> readText input
  | 't' :: 'r' :: 'u' :: 'e' :: rest => some (.bool true, rest)
  | 'f' :: 'a' :: 'l' :: 's' :: 'e' :: rest => some (.bool false, rest)
  | _ => readMoment input <|> readNumber input

/-- A value with at most so many arrays and tables within each other. -/
def readValue : Nat → Reader Toml
  | 0, input => readScalar input
  | depth + 1, input =>
      match input with
      | '[' :: rest => do
          let (items, rest) ← readItems (readValue depth) (rest.length + 1) rest
          some (.array items, rest)
      | '\x7b' :: rest =>
          match skipBlanks rest with
          | '\x7d' :: rest => some (.table .braces [], rest)
          | rest => do
              let (entries, rest) ← readEntries (readValue depth) (rest.length + 1) rest
              some (← inBraces entries, rest)
      | _ => readScalar input

/-- A statement up to the end of its line. -/
def readStatement : Reader Statement := fun input => do
  match input with
  | '[' :: '[' :: rest =>
      let (key, rest) ← readKey rest
      let rest ← after? ']' (← after? ']' rest)
      some (.element key, ← skipLineEnd rest)
  | '[' :: rest =>
      let (key, rest) ← readKey rest
      let rest ← after? ']' rest
      some (.table key, ← skipLineEnd rest)
  | _ =>
      let (key, rest) ← readKey input
      let (value, rest) ← readValue depthLimit (skipBlanks (← after? '=' rest))
      some (.entry key value, ← skipLineEnd rest)

/-- The statements of a document. The first argument bounds their number. -/
def readStatements : Nat → List Char → Option (List Statement)
  | 0, _ => none
  | bound + 1, input => do
      match ← skipLines false input with
      | [] => some []
      | rest =>
          let (statement, rest) ← readStatement rest
          let statements ← readStatements bound rest
          some (statement :: statements)

/-- The root table that a text spells. A byte order mark may come first. -/
def parse? (text : String) : Option Toml := do
  let input := match text.toList with
    | '\ufeff' :: rest => rest
    | input => input
  ofStatements (← readStatements (input.length + 1) input)

end SpokenKeys.Toml
