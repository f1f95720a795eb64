import SpokenKeys.Pipeline
import SpokenKeys.Schema.Codec

/-!
The types whose values go to an executor, as declared data. From these declarations a
codec writes the text an executor receives and reads it back.
-/

namespace SpokenKeys

namespace Executor

/-- An alternative whose written name follows from its declared name. -/
def styled (style : NameStyle) (name : String) (fields : List Field) : Alternative :=
  ⟨name, style.respell name, fields⟩

def directions : Declaration :=
  .names (["Up", "Down", "Left", "Right"].map (styled .lowercase · []))

/-- The modifiers, written under the names that the executor has for the keys. -/
def modifiers : Declaration := .names [
  ⟨"Control", "ctrl", []⟩,
  ⟨"Alt", "alt", []⟩,
  ⟨"Super", "Super_L", []⟩,
  ⟨"Shift", "Shift_L", []⟩,
  ⟨"Command", "cmd", []⟩]

def actions : Declaration := .tagged "kind" [
  styled .snakeCase "Chain" [⟨"actions", .list (.declared "Action")⟩],
  styled .snakeCase "Movement" [⟨"direction", .declared "Direction"⟩],
  styled .snakeCase "Repeat" [⟨"count", .number⟩, ⟨"action", .declared "Action"⟩],
  styled .snakeCase "Char" [⟨"value", .char⟩],
  styled .snakeCase "RawChar" [⟨"key", .text⟩],
  styled .snakeCase "ModPlusKey"
    [⟨"modifiers", .list (.declared "Modifier")⟩, ⟨"action", .declared "Action"⟩],
  styled .snakeCase "Sequence" [⟨"text", .text⟩],
  styled .snakeCase "WordSequence" [⟨"words", .list (.declared "Action")⟩],
  styled .snakeCase "Null" [⟨"word", .text⟩],
  styled .snakeCase "Empty" []]

def outputs : Declaration := .record ⟨"PipelineOutput", "PipelineOutput",
  [⟨"action", .declared "Action"⟩, ⟨"sleeping", .flag⟩, ⟨"words", .number⟩]⟩

def schema : Schema := [
  ("Direction", directions),
  ("Modifier", modifiers),
  ("Action", actions),
  ("PipelineOutput", outputs)]

end Executor

/-! ## Values -/

namespace Direction

def declaredName : Direction → String
  | .up => "Up"
  | .down => "Down"
  | .left => "Left"
  | .right => "Right"

def content (direction : Direction) : Content := .made direction.declaredName []

def ofContent? : Content → Option Direction
  | .made name [] => all.find? fun direction => direction.declaredName == name
  | _ => none

end Direction

namespace Modifier

def declaredName : Modifier → String
  | .control => "Control"
  | .alt => "Alt"
  | .super => "Super"
  | .shift => "Shift"
  | .command => "Command"

def content (modifier : Modifier) : Content := .made modifier.declaredName []

def ofContent? : Content → Option Modifier
  | .made name [] => all.find? fun modifier => modifier.declaredName == name
  | _ => none

end Modifier

namespace Action

mutual

def content : Action → Content
  | .chain items => .made "Chain" [.list (contents items)]
  | .move direction => .made "Movement" [direction.content]
  | .times count body => .made "Repeat" [.number count, content body]
  | .char value => .made "Char" [.char value]
  | .key name => .made "RawChar" [.text name]
  | .hold modifiers body =>
      .made "ModPlusKey" [.list (modifiers.map Modifier.content), content body]
  | .text content => .made "Sequence" [.text content]
  | .words items => .made "WordSequence" [.list (contents items)]
  | .word spelling => .made "Null" [.text spelling]
  | .idle => .made "Empty" []
termination_by structural action => action

def contents : List Action → List Content
  | [] => []
  | action :: rest => content action :: contents rest
termination_by structural actions => actions

end

mutual

/-- The action that a value is, if it is one. -/
def ofContent? : Content → Option Action
  | .made "Chain" [.list items] => .chain <$> ofContents? items
  | .made "Movement" [direction] => .move <$> Direction.ofContent? direction
  | .made "Repeat" [.number count, body] => .times count <$> ofContent? body
  | .made "Char" [.char value] => some (.char value)
  | .made "RawChar" [.text name] => some (.key name)
  | .made "ModPlusKey" [.list modifiers, body] => do
      .hold (← modifiers.mapM Modifier.ofContent?) <$> ofContent? body
  | .made "Sequence" [.text content] => some (.text content)
  | .made "WordSequence" [.list items] => .words <$> ofContents? items
  | .made "Null" [.text spelling] => some (.word spelling)
  | .made "Empty" [] => some .idle
  | _ => none
termination_by structural content => content

def ofContents? : List Content → Option (List Action)
  | [] => some []
  | content :: rest => do some ((← ofContent? content) :: (← ofContents? rest))
termination_by structural contents => contents

end

mutual

/-- How deep lists and objects stand in one another in the text of an action. -/
def levels : Action → Nat
  | .chain items | .words items => 2 + levelsList items
  | .times _ body | .hold _ body => 1 + levels body
  | .move _ | .char _ | .key _ | .text _ | .word _ | .idle => 1
termination_by structural action => action

def levelsList : List Action → Nat
  | [] => 0
  | action :: rest => max (levels action) (levelsList rest)
termination_by structural actions => actions

end

end Action

namespace PipelineOutput

def levels (output : PipelineOutput) : Nat := 1 + output.action.levels

def content (output : PipelineOutput) : Content :=
  .made "PipelineOutput" [output.action.content, .flag output.sleeping, .number output.words]

def ofContent? : Content → Option PipelineOutput
  | .made "PipelineOutput" [action, .flag sleeping, .number words] =>
      (⟨·, sleeping, words⟩) <$> Action.ofContent? action
  | _ => none

end PipelineOutput

/-! ## Texts -/

namespace Executor

/-- The text that a codec writes for an action. -/
def writeAction (codec : Codec) (action : Action) : Option String :=
  codec.write schema (.declared "Action") action.content

def readAction (codec : Codec) (text : String) : Option Action :=
  (codec.read schema (.declared "Action") text).bind Action.ofContent?

/-- The text that a codec writes for the output of an utterance. -/
def writeOutput (codec : Codec) (output : PipelineOutput) : Option String :=
  codec.write schema (.declared "PipelineOutput") output.content

def readOutput (codec : Codec) (text : String) : Option PipelineOutput :=
  (codec.read schema (.declared "PipelineOutput") text).bind PipelineOutput.ofContent?

end Executor

end SpokenKeys
