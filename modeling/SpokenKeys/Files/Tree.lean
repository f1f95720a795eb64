import SpokenKeys.Files.Path

/-!
A tree of files and directories with a working directory. Files are found by
paths, and the directories on the way to a new file are made with it. What a
file holds is not kept here.
-/

namespace SpokenKeys.Files

/-- What a name in a directory stands for. -/
inductive Node where
  | file
  | directory (entries : List (String × Node))
deriving Inhabited

abbrev Entries := List (String × Node)

/-- The entries with a name that was not among them. -/
def Entries.add (name : String) (node : Node) (entries : Entries) : Entries :=
  (name, node) :: entries

/-- The entries with another node for a name. -/
def Entries.replace (name : String) (node : Node) (entries : Entries) : Entries :=
  entries.map fun entry => if entry.1 = name then (name, node) else entry

/-- Why a file or directory cannot be had. -/
inductive FileFault where
  | missing
  | exists
  | notDirectory
  | isDirectory
  | nameTooLong
  /-- A name has a character that no name can have. -/
  | nullCharacter
deriving DecidableEq, Repr

def FileFault.message : FileFault → String
  | .missing => "No such file or directory (os error 2)"
  | .exists => "File exists (os error 17)"
  | .notDirectory => "Not a directory (os error 20)"
  | .isDirectory => "Is a directory (os error 21)"
  | .nameTooLong => "File name too long (os error 36)"
  | .nullCharacter => "file name contained an unexpected NUL byte"

/-- The names on the way from the root, the innermost first. -/
abbrev Location := List String

/-- A directory that was reached, with the directories around it. -/
structure Place where
  /-- The names on the way, the innermost first, and for each the directory that
  has it. -/
  trail : List (String × Entries)
  /-- What is in the directory. -/
  entries : Entries

namespace Place

/-- Where the place is. -/
def location (place : Place) : Location := place.trail.map Prod.fst

def up (place : Place) : Place :=
  match place.trail with
  | [] => place
  | (_, outer) :: rest => ⟨rest, outer⟩

/-- What a step finds in the directory, if anything. A name that is too long is
not looked for. -/
def find? (place : Place) (step : Step) : Except FileFault (Option Node) :=
  if step.isTooLong then .error .nameTooLong else .ok (place.entries.lookup step.name)

def enter (place : Place) (step : Step) : Except FileFault Place :=
  if step.isHere then .ok place
  else if step.isUp then .ok place.up
  else do
    match ← place.find? step with
    | none => .error .missing
    | some .file => .error .notDirectory
    | some (.directory entries) =>
        .ok ⟨(step.name, place.entries) :: place.trail, entries⟩

def walk (place : Place) : List Step → Except FileFault Place
  | [] => .ok place
  | step :: rest => do (← place.enter step).walk rest

/-- The root of the tree that a directory on a trail belongs to. -/
def rootOf : List (String × Entries) → Entries → Entries
  | [], entries => entries
  | (name, outer) :: rest, entries => rootOf rest (outer.replace name (.directory entries))

/-- The root of the tree with one more name in the directory. -/
def rootWith (place : Place) (name : String) (node : Node) : Entries :=
  rootOf place.trail (place.entries.add name node)

end Place

/-- A tree of files. -/
structure Tree where
  root : Entries
  /-- The names on the way to the working directory, the outermost first. -/
  working : List String

instance : Inhabited Tree := ⟨⟨[], []⟩⟩

namespace Tree

/-- A tree with nothing but an empty working directory. -/
def fresh : Tree := ⟨[("work", .directory [])], ["work"]⟩

def start (tree : Tree) (path : Path) : Except FileFault Place :=
  if path.isAbsolute then .ok ⟨[], tree.root⟩
  else Place.walk ⟨[], tree.root⟩ (tree.working.map fun name => ⟨name, 0⟩)

/-- The directory around the end of a path, and the last step unless the path is
the root's. -/
def approach (tree : Tree) (path : Path) : Except FileFault (Place × Option Step) := do
  if path.hasNull then .error .nullCharacter
  else if pathBytes < path.size then .error .nameTooLong
  else
    let place ← tree.start path
    match path.steps with
    | [] => if path.isAbsolute then .ok (place, none) else .error .missing
    | last :: outer => .ok (← place.walk outer.reverse, some last)

def hasDirectory (tree : Tree) (path : Path) : Bool :=
  match tree.approach path with
  | .ok (_, none) => true
  | .ok (place, some last) => (place.enter last).isOk
  | .error _ => false

def makeDirectory (tree : Tree) (path : Path) : Except FileFault Tree := do
  match ← tree.approach path with
  | (_, none) => .error .exists
  | (place, some last) =>
      if last.isHere || last.isUp then .error .exists
      else
        match ← place.find? last with
        | some _ => .error .exists
        | none => .ok { tree with root := place.rootWith last.name (.directory []) }

/-- The tree with a directory at a path, where one may be already. -/
def ensureDirectory (tree : Tree) (path : Path) : Except FileFault Tree :=
  match tree.makeDirectory path with
  | .ok tree => .ok tree
  | .error fault => if tree.hasDirectory path then .ok tree else .error fault

/-- The tree with a directory at the first path, which the others lead up to. What
was made before a fault stays. -/
def makeDirectories (tree : Tree) : List Path → Except FileFault Unit × Tree
  | [] => (.ok (), tree)
  | path :: outer =>
      match tree.ensureDirectory path with
      | .ok tree => (.ok (), tree)
      | .error .missing =>
          match makeDirectories tree outer with
          | (.error fault, tree) => (.error fault, tree)
          | (.ok (), tree) =>
              match tree.ensureDirectory path with
              | .ok tree => (.ok (), tree)
              | .error fault => (.error fault, tree)
      | .error fault => (.error fault, tree)

/-- The file at a path, which is made if it is missing. -/
def openFile (tree : Tree) (path : Path) : Except FileFault (Location × Tree) := do
  match ← tree.approach path with
  | (_, none) => .error .isDirectory
  | (place, some last) =>
      if last.isHere || last.isUp || path.endsInSlash then .error .isDirectory
      else
        let location := last.name :: place.location
        match ← place.find? last with
        | some .file => .ok (location, tree)
        | some (.directory _) => .error .isDirectory
        | none => .ok (location, { tree with root := place.rootWith last.name .file })

/-- The file at a path for writing at its end. It is made if it is missing, and so
are the directories around it. -/
def openLog (tree : Tree) (path : Path) : Except FileFault Location × Tree :=
  match tree.makeDirectories path.around with
  | (.error fault, tree) => (.error fault, tree)
  | (.ok (), tree) =>
      match tree.openFile path with
      | .error fault => (.error fault, tree)
      | .ok (location, tree) => (.ok location, tree)

/-- The file at a path for reading. -/
def locate (tree : Tree) (path : Path) : Except FileFault Location := do
  match ← tree.approach path with
  | (_, none) => .error .isDirectory
  | (place, some last) =>
      if last.isHere || last.isUp then .error .isDirectory
      else
        match ← place.find? last with
        | none => .error .missing
        | some (.directory _) => .error .isDirectory
        | some .file =>
            if path.endsInSlash then .error .notDirectory
            else .ok (last.name :: place.location)

end Tree

end SpokenKeys.Files
