import SpokenKeys.Text.Hex

/-!
The texts and keys of TOML. Every reader takes the characters still to be read
and returns what it found with those that follow.
-/

namespace SpokenKeys.Toml

/-- A reader of one part of a document. -/
abbrev Reader (α : Type) := List Char → Option (α × List Char)

def isBlank (c : Char) : Bool := c == ' ' || c == '\t'

/-- The characters that texts and comments may hold as they stand. -/
def isPlain (c : Char) : Bool := c == '\t' || (' ' ≤ c && c != '\x7f')

def skipBlanks (input : List Char) : List Char := input.dropWhile isBlank

/-- The rest after a character, if it comes first. -/
def after? (c : Char) : List Char → Option (List Char)
  | [] => none
  | first :: rest => if first = c then some rest else none

/-- The rest of a document after an end of line, if there is one. -/
def newline? : List Char → Option (List Char)
  | '\n' :: rest => some rest
  | '\r' :: '\n' :: rest => some rest
  | _ => none

/-- The character of a short escape. -/
def shortEscape? : Char → Option Char
  | 'b' => some '\x08'
  | 't' => some '\t'
  | 'n' => some '\n'
  | 'f' => some '\x0c'
  | 'r' => some '\r'
  | '"' => some '"'
  | '\\' => some '\\'
  | _ => none

/-- The character that hexadecimal digits spell. -/
def longEscape? (digits : List Char) : Option Char :=
  (Text.hexNumber? digits).bind Text.scalar?

/-- A character in front of what a reader found. -/
def before (c : Char) (found : List Char × List Char) : List Char × List Char :=
  (c :: found.1, found.2)

/-- The content of a text in double quotes, after the opening one. -/
def quotedText : Reader (List Char)
  | [] => none
  | '"' :: rest => some ([], rest)
  | '\\' :: 'u' :: a :: b :: c :: d :: rest => do
      let first ← longEscape? [a, b, c, d]
      before first <$> quotedText rest
  | '\\' :: 'U' :: a :: b :: c :: d :: e :: f :: g :: h :: rest => do
      let first ← longEscape? [a, b, c, d, e, f, g, h]
      before first <$> quotedText rest
  | '\\' :: c :: rest => do
      let first ← shortEscape? c
      before first <$> quotedText rest
  | c :: rest => if isPlain c then before c <$> quotedText rest else none

/-- The content of a text in single quotes, after the opening one. Nothing is
escaped in it. -/
def literalText : Reader (List Char)
  | [] => none
  | '\'' :: rest => some ([], rest)
  | c :: rest => if isPlain c then before c <$> literalText rest else none

/-- The content of a text of several lines in three double quotes each, after
the opening ones. Up to two quotes may stand before the closing ones. A
backslash at the end of a line drops what follows up to the next character that
is not blank; the flag says that this is going on. -/
def quotedBlock : Bool → Reader (List Char)
  | _, [] => none
  | _, '"' :: '"' :: '"' :: '"' :: '"' :: rest => some (['"', '"'], rest)
  | _, '"' :: '"' :: '"' :: '"' :: rest => some (['"'], rest)
  | _, '"' :: '"' :: '"' :: rest => some ([], rest)
  | dropping, '\n' :: rest =>
      if dropping then quotedBlock true rest else before '\n' <$> quotedBlock false rest
  | dropping, '\r' :: '\n' :: rest =>
      if dropping then quotedBlock true rest else before '\n' <$> quotedBlock false rest
  | _, '\\' :: 'u' :: a :: b :: c :: d :: rest => do
      let first ← longEscape? [a, b, c, d]
      before first <$> quotedBlock false rest
  | _, '\\' :: 'U' :: a :: b :: c :: d :: e :: f :: g :: h :: rest => do
      let first ← longEscape? [a, b, c, d, e, f, g, h]
      before first <$> quotedBlock false rest
  | _, '\\' :: c :: rest =>
      if (newline? (skipBlanks (c :: rest))).isSome then quotedBlock true rest
      else do
        let first ← shortEscape? c
        before first <$> quotedBlock false rest
  | dropping, c :: rest =>
      if dropping && isBlank c then quotedBlock true rest
      else if isPlain c then before c <$> quotedBlock false rest
      else none

/-- The content of a text of several lines in three single quotes each, after
the opening ones. Up to two quotes may stand before the closing ones. -/
def literalBlock : Reader (List Char)
  | [] => none
  | '\'' :: '\'' :: '\'' :: '\'' :: '\'' :: rest => some (['\'', '\''], rest)
  | '\'' :: '\'' :: '\'' :: '\'' :: rest => some (['\''], rest)
  | '\'' :: '\'' :: '\'' :: rest => some ([], rest)
  | '\n' :: rest => before '\n' <$> literalBlock rest
  | '\r' :: '\n' :: rest => before '\n' <$> literalBlock rest
  | c :: rest => if isPlain c then before c <$> literalBlock rest else none

/-- The rest after the end of line that may follow the opening quotes of a text
of several lines. -/
def skipFirstNewline (input : List Char) : List Char := (newline? input).getD input

/-- A text of any of the four kinds. -/
def readText : Reader String := fun input => do
  let (content, rest) ← match input with
    | '"' :: '"' :: '"' :: rest => quotedBlock false (skipFirstNewline rest)
    | '\'' :: '\'' :: '\'' :: rest => literalBlock (skipFirstNewline rest)
    | '"' :: rest => quotedText rest
    | '\'' :: rest => literalText rest
    | _ => none
  some (String.ofList content, rest)

def isKeyChar (c : Char) : Bool := c.isAlphanum || c == '-' || c == '_'

def readName : Reader String := fun input =>
  match input with
  | '"' :: rest => (fun (content, rest) => (String.ofList content, rest)) <$> quotedText rest
  | '\'' :: rest => (fun (content, rest) => (String.ofList content, rest)) <$> literalText rest
  | _ =>
      let name := input.takeWhile isKeyChar
      if name.isEmpty then none else some (String.ofList name, input.dropWhile isKeyChar)

/-- The names of a key with points between them, and the blanks around them. The
first argument bounds their number. -/
def readNames : Nat → Reader (List String)
  | 0, _ => none
  | bound + 1, input => do
      let (name, rest) ← readName (skipBlanks input)
      match skipBlanks rest with
      | '.' :: rest => do
          let (names, rest) ← readNames bound rest
          some (name :: names, rest)
      | rest => some ([name], rest)

end SpokenKeys.Toml
