import SpokenKeys.Log.Level

/-!
The environment of the program: named texts that give preferences their
defaults. A variable that does not have a proper value is as good as unset.
-/

namespace SpokenKeys

/-- The variables that are set. -/
structure Environment where
  entries : List (String × String) := []
deriving Repr, Inhabited

namespace Environment

def text? (environment : Environment) (name : String) : Option String :=
  environment.entries.lookup name

/-- The truth value of a variable, which is written in exactly one way. -/
def flag? (environment : Environment) (name : String) : Option Bool :=
  match environment.text? name with
  | some "true" => some true
  | some "false" => some false
  | _ => none

/-- The log level of a variable. -/
def level? (environment : Environment) (name : String) : Option Log.Level :=
  (environment.text? name).bind Log.Level.ofText?

end Environment

end SpokenKeys
