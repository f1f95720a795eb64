import SpokenKeys.Proofs.ExecutorTexts

/-!
Printed actions are read. The document of an action names its kind and holds its fields
in order, so reading it finds the same action wherever it stands, and with it the whole
output of an utterance.
-/

namespace SpokenKeys

theorem Modifier.ofKeyName?_keyName (modifier : Modifier) :
    ofKeyName? modifier.keyName = some modifier := by
  cases modifier <;> decide

theorem Direction.ofWord?_word (direction : Direction) :
    ofWord? direction.word = some direction := by
  cases direction <;> decide

namespace Json

theorem word?_nat (n : UInt64) : (nat n.toNat).word? = some n.toNat := by
  simp [nat, word?, n.toNat_lt]

theorem char?_singleton (c : Char) : (text (String.singleton c)).char? = some c := by
  simp [char?]

end Json

namespace Action

/-- The contents of an action's document, without the kind. -/
def fields : Action → List Json
  | .chain items | .words items => [.list (toJsonList items)]
  | .move direction => [.text direction.word]
  | .times count body => [.nat count.toNat, body.toJson]
  | .char value => [.text (String.singleton value)]
  | .key name => [.text name]
  | .hold modifiers body => [.list (modifiers.map modifierJson), body.toJson]
  | .text content => [.text content]
  | .word spelling => [.text spelling]
  | .idle => []

theorem parts?_toJson (standing : Standing) (action : Action) :
    parts? standing action.toJson = some (action.kindName, action.fields) := by
  cases action <;> rfl

/-- A document has nodes for the action, for its kind and for its fields. -/
theorem size_toJson (action : Action) :
    action.toJson.size = 2 + Json.sizeItems action.fields := by
  cases action <;>
    simp only [toJson, fields, Json.size, Json.sizeMembers, Json.sizeMember, Json.sizeItems] <;>
    omega

theorem modifierOfJson?_modifierJson (modifier : Modifier) :
    modifierOfJson? (modifierJson modifier) = some modifier := by
  simp [modifierJson, modifierOfJson?, bareName?, Json.bareName?, Modifier.ofKeyName?_keyName]

theorem mapM_modifierOfJson? (modifiers : List Modifier) :
    (modifiers.map modifierJson).mapM modifierOfJson? = some modifiers := by
  induction modifiers with
  | nil => rfl
  | cons modifier rest ih =>
      rw [List.map_cons, List.mapM_cons, modifierOfJson?_modifierJson, ih]
      rfl

mutual

/-- The document of an action is read as the action, wherever it stands. The number of
its nodes is depth enough. -/
theorem read?_toJson (action : Action) (standing : Standing) {depth : Nat}
    (h : action.toJson.size ≤ depth) : read? depth standing action.toJson = some action := by
  have hsize := action.size_toJson
  obtain ⟨depth, rfl⟩ : ∃ below, depth = below + 1 := Nat.exists_eq_succ_of_ne_zero (by omega)
  match action with
  | .chain items =>
    simp only [fields, Json.sizeItems, Json.size] at hsize
    have hitems : (toJsonList items).mapM (read? depth .inner) = some items :=
      mapM_read?_toJson items (by omega)
    rw [read?, parts?_toJson]
    simp [kindName, fields, Json.list?, hitems]
  | .move direction =>
    rw [read?, parts?_toJson]
    simp [kindName, fields, bareName?, Json.bareName?, Direction.ofWord?_word]
  | .times count body =>
    simp only [fields, Json.sizeItems] at hsize
    have hbody : read? depth .inner body.toJson = some body := read?_toJson body .inner (by omega)
    rw [read?, parts?_toJson]
    simp [kindName, fields, Json.word?_nat, hbody]
  | .char value =>
    rw [read?, parts?_toJson]
    simp [kindName, fields, Json.char?_singleton]
  | .key name =>
    rw [read?, parts?_toJson]
    simp [kindName, fields, Json.text?]
  | .hold modifiers body =>
    simp only [fields, Json.sizeItems] at hsize
    have hbody : read? depth .inner body.toJson = some body := read?_toJson body .inner (by omega)
    rw [read?, parts?_toJson]
    simp [-List.mapM_map, kindName, fields, Json.list?, mapM_modifierOfJson?, hbody]
  | .text content =>
    rw [read?, parts?_toJson]
    simp [kindName, fields, Json.text?]
  | .words items =>
    simp only [fields, Json.sizeItems, Json.size] at hsize
    have hitems : (toJsonList items).mapM (read? depth .inner) = some items :=
      mapM_read?_toJson items (by omega)
    rw [read?, parts?_toJson]
    simp [kindName, fields, Json.list?, hitems]
  | .word spelling =>
    rw [read?, parts?_toJson]
    simp [kindName, fields, Json.text?]
  | .idle =>
    rw [read?, parts?_toJson]
    simp [kindName, fields]

theorem mapM_read?_toJson (items : List Action) {depth : Nat}
    (h : Json.sizeItems (toJsonList items) ≤ depth) :
    (toJsonList items).mapM (read? depth .inner) = some items := by
  match items with
  | [] => rfl
  | item :: rest =>
    rw [toJsonList, Json.sizeItems] at h
    have hitem : read? depth .inner item.toJson = some item := read?_toJson item .inner (by omega)
    have hrest : (toJsonList rest).mapM (read? depth .inner) = some rest :=
      mapM_read?_toJson rest (by omega)
    rw [toJsonList, List.mapM_cons, hitem, hrest]
    rfl

end

theorem ofJson?_toJson (action : Action) : ofJson? action.toJson = some action :=
  read?_toJson action .outer (Nat.le_refl _)

/-- What is written for an action is read as the action. -/
theorem read_print (action : Action) : (Json.parse? action.print).bind ofJson? = some action := by
  have hwhole := Schema.isWhole_of_form action.content (Executor.form?_action action)
  rw [print, Json.parse?_print hwhole, Option.bind_some, ofJson?_toJson]

end Action

namespace PipelineOutput

theorem ofJson?_toJson (output : PipelineOutput) : ofJson? output.toJson = some output := by
  simp [ofJson?, toJson, Json.record?, Json.lookup, Action.ofJson?_toJson, Json.bool?,
    Json.word?_nat]

/-- What is written for an output is read as the output. -/
theorem read_print (output : PipelineOutput) :
    (Json.parse? output.print).bind ofJson? = some output := by
  have hwhole := Schema.isWhole_of_form output.content (Executor.form?_output output)
  rw [print, Json.parse?_print hwhole, Option.bind_some, ofJson?_toJson]

end PipelineOutput

end SpokenKeys
