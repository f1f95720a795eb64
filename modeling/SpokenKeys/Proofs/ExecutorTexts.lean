import SpokenKeys.Executor
import SpokenKeys.Proofs.DeclaredForms

/-!
What an executor receives says all. The forms of actions and outputs are the documents
that are printed for them, no two names of their declarations are written alike, and an
action is found again from its content. So whatever writes and reads declared data as it
promises loses nothing.
-/

namespace SpokenKeys

namespace Executor

/-- No two alternatives of the executor's types are written alike, and no two members of
their objects are. -/
theorem schema_isUnambiguous : schema.IsUnambiguous := by decide

theorem form?_direction (direction : Direction) :
    schema.form? direction.content (.declared "Direction") = some (.text direction.word) := by
  cases direction <;> rfl

theorem form?_modifier (modifier : Modifier) :
    schema.form? modifier.content (.declared "Modifier") = some (.text modifier.keyName) := by
  cases modifier <;> rfl

theorem itemForms?_modifiers (modifiers : List Modifier) :
    schema.itemForms? (modifiers.map Modifier.content) (.declared "Modifier") =
      some (modifiers.map Action.modifierJson) := by
  induction modifiers with
  | nil => rfl
  | cons modifier rest ih =>
      simp [Schema.itemForms?, form?_modifier, ih, Action.modifierJson]

/-- The form of an action: its kind, then the members of its fields. -/
theorem form?_made {name written : String} {fields : List Field} {contents : List Content}
    {members : List (String × Json)}
    (hname : (actions.alternatives.find? fun alternative => alternative.name == name) =
      some ⟨name, written, fields⟩)
    (hmembers : schema.fieldForms? contents fields = some members) :
    schema.form? (.made name contents) (.declared "Action") =
      some (.object (("kind", .text written) :: members)) := by
  have hlookup : schema.lookup "Action" = some actions := rfl
  simp only [Schema.form?, hlookup, Option.bind_eq_bind, Option.bind_some, hname, hmembers]
  rfl

mutual

/-- The form of an action is the document that is printed for it. -/
theorem form?_action (action : Action) :
    schema.form? action.content (.declared "Action") = some action.toJson := by
  match action with
  | .chain items =>
    rw [Action.content, Action.toJson]
    refine form?_made rfl ?_
    simp [Schema.fieldForms?, Schema.form?, itemForms?_actions items]
  | .words items =>
    rw [Action.content, Action.toJson]
    refine form?_made rfl ?_
    simp [Schema.fieldForms?, Schema.form?, itemForms?_actions items]
  | .move direction =>
    rw [Action.content, Action.toJson]
    refine form?_made rfl ?_
    simp [Schema.fieldForms?, form?_direction]
  | .times count body =>
    rw [Action.content, Action.toJson]
    refine form?_made rfl ?_
    simp [Schema.fieldForms?, Schema.form?, form?_action body]
  | .hold modifiers body =>
    rw [Action.content, Action.toJson]
    refine form?_made rfl ?_
    simp [Schema.fieldForms?, Schema.form?, itemForms?_modifiers, form?_action body]
  | .char _ | .key _ | .text _ | .word _ | .idle => rfl

theorem itemForms?_actions (items : List Action) :
    schema.itemForms? (Action.contents items) (.declared "Action") =
      some (Action.toJsonList items) := by
  match items with
  | [] => rfl
  | item :: rest =>
    simp [Action.contents, Schema.itemForms?, form?_action item, itemForms?_actions rest,
      Action.toJsonList]

end

theorem form?_output (output : PipelineOutput) :
    schema.form? output.content (.declared "PipelineOutput") = some output.toJson := by
  have hlookup : schema.lookup "PipelineOutput" = some outputs := rfl
  simp [PipelineOutput.content, PipelineOutput.toJson, Schema.form?, hlookup, outputs,
    Declaration.alternatives, Declaration.form?, Schema.fieldForms?, form?_action]

end Executor

/-! ## Values from their contents -/

theorem Direction.ofContent?_content (direction : Direction) :
    ofContent? direction.content = some direction := by
  cases direction <;> decide

theorem Modifier.ofContent?_content (modifier : Modifier) :
    ofContent? modifier.content = some modifier := by
  cases modifier <;> decide

theorem Modifier.mapM_ofContent? (modifiers : List Modifier) :
    (modifiers.map content).mapM ofContent? = some modifiers := by
  induction modifiers with
  | nil => rfl
  | cons modifier rest ih =>
      rw [List.map_cons, List.mapM_cons, ofContent?_content, ih]
      rfl

namespace Action

mutual

theorem ofContent?_content (action : Action) : ofContent? action.content = some action := by
  match action with
  | .chain items => simp [content, ofContent?, ofContents?_contents items]
  | .words items => simp [content, ofContent?, ofContents?_contents items]
  | .move direction => simp [content, ofContent?, Direction.ofContent?_content]
  | .times count body => simp [content, ofContent?, ofContent?_content body]
  | .hold modifiers body =>
    simp [-List.mapM_map, content, ofContent?, Modifier.mapM_ofContent?, ofContent?_content body]
  | .char _ | .key _ | .text _ | .word _ | .idle => rfl

theorem ofContents?_contents (items : List Action) : ofContents? (contents items) = some items := by
  match items with
  | [] => rfl
  | item :: rest =>
    simp [contents, ofContents?, ofContent?_content item, ofContents?_contents rest]

end

theorem levels_pos (action : Action) : 0 < action.levels := by
  cases action <;> rw [levels] <;> omega

mutual

theorem depth_toJson (action : Action) : action.toJson.depth = action.levels := by
  match action with
  | .chain items | .words items =>
    simp only [toJson, levels, Json.depth, Json.depthMembers, Json.depthMember,
      depthItems_toJsonList items]
    omega
  | .times count body =>
    simp only [toJson, levels, Json.depth, Json.depthMembers, Json.depthMember, Json.nat,
      depth_toJson body]
    omega
  | .hold modifiers body =>
    have hmodifiers : Json.depthItems (modifiers.map modifierJson) = 0 := by
      induction modifiers with
      | nil => rfl
      | cons modifier rest ih => rw [List.map_cons, Json.depthItems, ih]; rfl
    have hbody := body.levels_pos
    simp only [toJson, levels, Json.depth, Json.depthMembers, Json.depthMember, hmodifiers,
      depth_toJson body]
    omega
  | .move _ | .char _ | .key _ | .text _ | .word _ | .idle => rfl

theorem depthItems_toJsonList (items : List Action) :
    Json.depthItems (toJsonList items) = levelsList items := by
  match items with
  | [] => rfl
  | item :: rest =>
    rw [toJsonList, levelsList, Json.depthItems, depth_toJson item, depthItems_toJsonList rest]

end

end Action

theorem PipelineOutput.ofContent?_content (output : PipelineOutput) :
    ofContent? output.content = some output := by
  simp [content, ofContent?, Action.ofContent?_content]

theorem PipelineOutput.depth_toJson (output : PipelineOutput) :
    output.toJson.depth = output.levels := by
  simp only [toJson, levels, Json.depth, Json.depthMembers, Json.depthMember, Json.nat,
    Action.depth_toJson]
  omega

/-! ## Texts -/

namespace Executor

variable {codec : Codec} {limit : ℕ∞}

theorem exists_readAction (hwrites : codec.WritesForms)
    (hreads : codec.ReadsDescriptions limit) (action : Action) :
    ∃ text, writeAction codec action = some text ∧
      ((action.levels : ℕ∞) ≤ limit → readAction codec text = some action) := by
  obtain ⟨text, hwrite, hread⟩ :=
    Codec.exists_read hwrites hreads schema_isUnambiguous (form?_action action)
  refine ⟨text, hwrite, fun hlimit => ?_⟩
  rw [action.depth_toJson] at hread
  rw [readAction, hread hlimit, Option.bind_some, Action.ofContent?_content]

theorem exists_readOutput (hwrites : codec.WritesForms)
    (hreads : codec.ReadsDescriptions limit) (output : PipelineOutput) :
    ∃ text, writeOutput codec output = some text ∧
      ((output.levels : ℕ∞) ≤ limit → readOutput codec text = some output) := by
  obtain ⟨text, hwrite, hread⟩ :=
    Codec.exists_read hwrites hreads schema_isUnambiguous (form?_output output)
  refine ⟨text, hwrite, fun hlimit => ?_⟩
  rw [output.depth_toJson] at hread
  rw [readOutput, hread hlimit, Option.bind_some, PipelineOutput.ofContent?_content]

theorem writeAction_injective (hwrites : codec.WritesForms) :
    Function.Injective (writeAction codec) := by
  intro action other h
  have hcontent := Codec.content_eq_of_write hwrites schema_isUnambiguous (form?_action action)
    (form?_action other) h
  have hread := action.ofContent?_content
  rw [hcontent, other.ofContent?_content] at hread
  exact (Option.some.inj hread).symm

theorem writeOutput_injective (hwrites : codec.WritesForms) :
    Function.Injective (writeOutput codec) := by
  intro output other h
  have hcontent := Codec.content_eq_of_write hwrites schema_isUnambiguous (form?_output output)
    (form?_output other) h
  have hread := output.ofContent?_content
  rw [hcontent, other.ofContent?_content] at hread
  exact (Option.some.inj hread).symm

/-- The text without blanks is the one that is printed. -/
theorem writeAction_compact (limit : Nat) (action : Action) :
    writeAction (Codec.compact limit) action = some action.print := by
  simp [writeAction, Codec.compact, form?_action, Action.print]

end Executor

/-- Nothing is lost on the way to an executor. A codec that writes declared forms as JSON
texts, and reads every JSON text that describes a value, writes every action and every
output of an utterance and reads the same back from the text, unless it is nested deeper
than the codec reads. Whatever the depth, different values have different texts. -/
theorem executor_json_lossless {codec : Codec} {limit : ℕ∞} (hwrites : codec.WritesForms)
    (hreads : codec.ReadsDescriptions limit) :
    (∀ action : Action, ∃ text, Executor.writeAction codec action = some text ∧
      ((action.levels : ℕ∞) ≤ limit → Executor.readAction codec text = some action)) ∧
    (∀ output : PipelineOutput, ∃ text, Executor.writeOutput codec output = some text ∧
      ((output.levels : ℕ∞) ≤ limit → Executor.readOutput codec text = some output)) ∧
    Function.Injective (Executor.writeAction codec) ∧
    Function.Injective (Executor.writeOutput codec) :=
  ⟨Executor.exists_readAction hwrites hreads, Executor.exists_readOutput hwrites hreads,
    Executor.writeAction_injective hwrites, Executor.writeOutput_injective hwrites⟩

/-- A text with quotes, a control character and a character beyond the first plane, under
held keys and as often as a count can say. -/
def escapedChord : Action :=
  .hold [.control, .super] (.times 18446744073709551615
    (.chain [.text "say \"\\\n😀", .char '\x01', .key "Return"]))

/-- The codec that writes no blanks and reads to a depth of 127 keeps its promises, and
gives back an action with escapes, held keys and the greatest count. -/
theorem executor_json_lossless_chord :
    (Codec.compact 127).WritesForms ∧ (Codec.compact 127).ReadsDescriptions 127 ∧
    Executor.writeAction (Codec.compact 127) escapedChord = some (
      "\x7b\"kind\":\"mod_plus_key\",\"modifiers\":[\"ctrl\",\"Super_L\"],\"action\":" ++
      "\x7b\"kind\":\"repeat\",\"count\":18446744073709551615,\"action\":" ++
      "\x7b\"kind\":\"chain\",\"actions\":[" ++
      "\x7b\"kind\":\"sequence\",\"text\":\"say \\\"\\\\\\n😀\"\x7d," ++
      "\x7b\"kind\":\"char\",\"value\":\"\\u0001\"\x7d," ++
      "\x7b\"kind\":\"raw_char\",\"key\":\"Return\"\x7d]\x7d\x7d\x7d") ∧
    Executor.readAction (Codec.compact 127) escapedChord.print = some escapedChord := by
  have hwrites := Codec.compact_writesForms 127
  have hreads := Codec.compact_readsDescriptions 127
  obtain ⟨text, hwrite, hread⟩ := (executor_json_lossless hwrites hreads).1 escapedChord
  have hlevels : (escapedChord.levels : ℕ∞) ≤ 127 := by
    have hdepth : escapedChord.levels ≤ 127 := by decide
    exact_mod_cast hdepth
  have hprint := Executor.writeAction_compact 127 escapedChord
  refine ⟨hwrites, hreads, ?_, ?_⟩
  · rw [hprint]
    cbv
  · rw [hprint] at hwrite
    rw [Option.some.inj hwrite]
    exact hread hlevels

end SpokenKeys
