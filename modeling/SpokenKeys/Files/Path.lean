/-!
Paths: the names on the way to a file. Each name remembers where it ends in the
text, since there is a limit to the size of a text that is used as a path.
-/

namespace SpokenKeys.Files

def nameBytes : Nat := 255

def pathBytes : Nat := 4095

/-- What stands between the slashes of a text, the empty texts included. -/
def splitSlashes : List Char → List (List Char)
  | [] => [[]]
  | c :: rest =>
      if c = '/' then [] :: splitSlashes rest
      else
        match splitSlashes rest with
        | [] => [[c]]
        | part :: parts => (c :: part) :: parts

/-- One name on the way, which may also be one dot for the directory itself or
two for the one around it. -/
structure Step where
  name : String
  /-- Number of bytes of the path up to the end of the name. -/
  stop : Nat
deriving DecidableEq, Repr, Inhabited

namespace Step

/-- Whether the step stays where it is. -/
def isHere (step : Step) : Bool := step.name == "."

/-- Whether the step goes to the directory around. -/
def isUp (step : Step) : Bool := step.name == ".."

def isTooLong (step : Step) : Bool := nameBytes < step.name.utf8ByteSize

end Step

/-- A path. -/
structure Path where
  /-- Whether the way begins at the root and not in the working directory. -/
  isAbsolute : Bool
  /-- The names on the way, the innermost first. -/
  steps : List Step
  /-- Whether a slash follows the last name. -/
  endsInSlash : Bool
  /-- Number of bytes of the text. -/
  size : Nat
deriving DecidableEq, Repr, Inhabited

namespace Path

/-- The steps of the parts of a text, in order, of which the first begins at a
byte. -/
def stepsOf : Nat → List String → List Step
  | _, [] => []
  | start, part :: rest =>
      let stop := start + part.utf8ByteSize
      let more := stepsOf (stop + 1) rest
      if part.isEmpty then more else ⟨part, stop⟩ :: more

def ofText (text : String) : Path where
  isAbsolute := text.toList.head? == some '/'
  steps := (stepsOf 0 ((splitSlashes text.toList).map String.ofList)).reverse
  endsInSlash := text.toList.getLast? == some '/'
  size := text.utf8ByteSize

/-- The paths that end with each of the steps, the longest first. -/
def endings (path : Path) : List Step → List Path
  | [] => []
  | last :: outer =>
      { path with steps := last :: outer, endsInSlash := false, size := last.stop } ::
        path.endings outer

/-- The paths of the directories that a file at a path is put into, the innermost
first. -/
def around (path : Path) : List Path :=
  path.endings (path.steps.filter fun step => !step.isHere).tail

/-- Whether some name has the null character, which no file can have. -/
def hasNull (path : Path) : Bool :=
  path.steps.any fun step => step.name.toList.contains '\x00'

end Path

end SpokenKeys.Files
