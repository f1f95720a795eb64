/-!
The tree of actions that an utterance stands for. An executor walks it and
replays it as key presses and typed text.
-/

namespace SpokenKeys

/-- A direction of the cursor. -/
inductive Direction where
  | up | down | left | right
deriving DecidableEq, Repr, Inhabited

namespace Direction

/-- Every direction, in the order the grammar lists them. -/
def all : List Direction := [.up, .down, .left, .right]

def word : Direction → String
  | .up => "up"
  | .down => "down"
  | .left => "left"
  | .right => "right"

def ofWord? (word : String) : Option Direction :=
  all.find? fun direction => direction.word == word

end Direction

/-- A key that is held while another action runs. -/
inductive Modifier where
  | control | alt | super | shift | command
deriving DecidableEq, Repr, Inhabited

namespace Modifier

/-- Every modifier. -/
def all : List Modifier := [.control, .alt, .super, .shift, .command]

/-- The spoken words for modifiers, in the order the grammar lists them. -/
def spoken : List (String × Modifier) := [
  ("control", .control), ("alt", .alt), ("alternative", .alt), ("super", .super),
  ("shift", .shift), ("command", .command)]

def ofWord? (word : String) : Option Modifier := spoken.lookup word

def keyName : Modifier → String
  | .control => "ctrl"
  | .alt => "alt"
  | .super => "Super_L"
  | .shift => "Shift_L"
  | .command => "cmd"

def ofKeyName? (name : String) : Option Modifier :=
  all.find? fun modifier => modifier.keyName == name

end Modifier

/-- What an executor does for an utterance. -/
inductive Action where
  /-- The actions one after the other. -/
  | chain (steps : List Action)
  /-- One step of the cursor. -/
  | move (direction : Direction)
  /-- The action a number of times. -/
  | times (count : UInt64) (body : Action)
  /-- One typed character. -/
  | char (value : Char)
  /-- One key, by its name. -/
  | key (name : String)
  /-- The action while keys are held, the first spoken key outermost. -/
  | hold (modifiers : List Modifier) (body : Action)
  /-- Typed text, as it stands. -/
  | text (content : String)
  /-- Words that the executor joins by its own rules. -/
  | words (items : List Action)
  /-- One word of a run of words. -/
  | word (spelling : String)
  /-- Nothing. -/
  | idle
deriving Repr, Inhabited

namespace Action

mutual

/-- Whether two actions are the same tree. -/
def same : Action → Action → Bool
  | .chain s, .chain t => sameList s t
  | .move d, .move e => d == e
  | .times m a, .times n b => m == n && same a b
  | .char c, .char d => c == d
  | .key k, .key l => k == l
  | .hold m a, .hold n b => m == n && same a b
  | .text c, .text d => c == d
  | .words s, .words t => sameList s t
  | .word c, .word d => c == d
  | .idle, .idle => true
  | _, _ => false

def sameList : List Action → List Action → Bool
  | [], [] => true
  | a :: s, b :: t => same a b && sameList s t
  | _, _ => false

end

mutual

theorem same_self : (a : Action) → same a a = true
  | .chain s | .words s => by simp [same, sameList_self s]
  | .times _ a | .hold _ a => by simp [same, same_self a]
  | .move _ | .char _ | .key _ | .text _ | .word _ | .idle => by simp [same]

theorem sameList_self : (s : List Action) → sameList s s = true
  | [] => by simp [sameList]
  | a :: s => by simp [sameList, same_self a, sameList_self s]

end

mutual

theorem eq_of_same : (a b : Action) → same a b = true → a = b
  | .chain s, b, h => by
      cases b <;> simp [same] at h
      rw [eq_of_sameList s _ h]
  | .words s, b, h => by
      cases b <;> simp [same] at h
      rw [eq_of_sameList s _ h]
  | .times _ a, b, h => by
      cases b <;> simp [same] at h
      rw [h.1, eq_of_same a _ h.2]
  | .hold _ a, b, h => by
      cases b <;> simp [same] at h
      rw [h.1, eq_of_same a _ h.2]
  | .move _, b, h => by cases b <;> simp_all [same]
  | .char _, b, h => by cases b <;> simp_all [same]
  | .key _, b, h => by cases b <;> simp_all [same]
  | .text _, b, h => by cases b <;> simp_all [same]
  | .word _, b, h => by cases b <;> simp_all [same]
  | .idle, b, h => by cases b <;> simp_all [same]

theorem eq_of_sameList : (s t : List Action) → sameList s t = true → s = t
  | [], t, h => by cases t <;> simp_all [sameList]
  | a :: s, t, h => by
      cases t <;> simp [sameList] at h
      rw [eq_of_same a _ h.1, eq_of_sameList s _ h.2]

end

instance : DecidableEq Action := fun a b =>
  if h : same a b then .isTrue (eq_of_same a b h)
  else .isFalse fun e => h (e ▸ same_self a)

/-- The executor's name for the kind of an action. -/
def kindName : Action → String
  | .chain _ => "chain"
  | .move _ => "movement"
  | .times _ _ => "repeat"
  | .char _ => "char"
  | .key _ => "raw_char"
  | .hold _ _ => "mod_plus_key"
  | .text _ => "sequence"
  | .words _ => "word_sequence"
  | .word _ => "null"
  | .idle => "empty"

def isIdle : Action → Bool
  | .idle => true
  | _ => false

/-- The actions directly inside an action, in the order they run. -/
def children : Action → List Action
  | .chain items | .words items => items
  | .times _ body | .hold _ body => [body]
  | _ => []

mutual

def size : Action → Nat
  | .chain items | .words items => 1 + sizeList items
  | .times _ body | .hold _ body => 1 + size body
  | .move _ | .char _ | .key _ | .text _ | .word _ | .idle => 1

def sizeList : List Action → Nat
  | [] => 0
  | action :: rest => size action + sizeList rest

end

/-- The action a number of times, if a number was spoken. -/
def timesIf (count : Option UInt64) (action : Action) : Action :=
  match count with
  | some count => .times count action
  | none => action

mutual

/-- The tree on one line, each node as its kind with its contents. -/
def display : Action → String
  | .chain items => s!"chain({displayList items})"
  | .move direction => s!"movement[{direction.word}]"
  | .times count body => s!"repeat[{count}]({display body})"
  | .char value => s!"char[{value}]"
  | .key name => s!"raw_char[{name}]"
  | .hold modifiers body =>
      let names := ",".intercalate (modifiers.map Modifier.keyName)
      s!"mod_plus_key[{names}]({display body})"
  | .text content => s!"sequence[{content}]"
  | .words items => s!"word_sequence({displayList items})"
  | .word spelling => s!"null[{spelling}]"
  | .idle => "empty"

def displayList : List Action → String
  | [] => ""
  | [action] => display action
  | action :: rest => s!"{display action}, {displayList rest}"

end

end Action

end SpokenKeys
