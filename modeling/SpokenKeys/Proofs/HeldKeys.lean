import SpokenKeys.Proofs.Chaining
import SpokenKeys.Proofs.SpokenNumbers

/-!
Keys that are held. Modifiers before a command are held around that command, the
first one outermost, and around nothing that is said after it.
-/

namespace SpokenKeys

open Commands

namespace Action

/-- The action while more keys are held, outside those that it holds itself. -/
def holding (modifiers : List Modifier) : Action → Action
  | .hold inner body => .hold (modifiers ++ inner) body
  | body => .hold modifiers body

theorem under_eq_holding (modifier : Modifier) (action : Action) :
    action.under modifier = action.holding [modifier] := by
  cases action <;> rfl

theorem under_holding (modifier : Modifier) (modifiers : List Modifier) (action : Action) :
    (action.holding modifiers).under modifier = action.holding (modifier :: modifiers) := by
  cases action <;> rfl

end Action

/-- The tokens are the words of the modifiers, one for each. -/
def Modifier.Named (words : List Token) (modifiers : List Modifier) : Prop :=
  List.Forall₂ (fun token modifier => Modifier.ofWord? token.kind = some modifier) words modifiers

namespace Commands

variable {words tokens : List Token} {modifiers : List Modifier} {action : Action}

/-- Modifiers before a command: each holds its key around what the ones after it
make of the command. -/
theorem Says.holding (hwords : Modifier.Named words modifiers) (hnonempty : words ≠ [])
    (h : Says .command tokens (.node action)) :
    Says .command (words ++ tokens) (.node (action.holding modifiers)) := by
  induction hwords with
  | nil => exact absurd rfl hnonempty
  | @cons token modifier words modifiers hmodifier hrest ih =>
      cases hrest with
      | nil =>
          rw [← Action.under_eq_holding]
          exact h.under hmodifier
      | cons =>
          rw [← Action.under_holding]
          exact (ih (List.cons_ne_nil _ _)).under hmodifier

end Commands

/-- Modifiers stack. Before an accepted command modifiers are accepted as a command
too, whose keys are held in the order they are said, repetitions included, outside
those that the command holds itself; whatever it does, how often included, is done
while they are held. Commands that follow are done after that, without the keys. -/
theorem modifiers_stack (parser : Parser) (journal : Log.Journal) (words tokens : List Token)
    (modifiers : List Modifier) (value : Value) (hwords : Modifier.Named words modifiers)
    (hnonempty : words ≠ []) (hlength : words.length + tokens.length ≤ Limits.tokens)
    (hcommand : parser.fragment journal .command tokens = .ok value) :
    ∃ action, value = .node action ∧
      parser.fragment journal .command (words ++ tokens) =
        .ok (.node (action.holding modifiers)) ∧
      ∀ (rest : List Token) (chain : Value),
        parser.fragment journal .commands rest = .ok chain →
        words.length + tokens.length + rest.length ≤ Limits.tokens →
        ∃ actions, chain = .node (.chain actions) ∧
          parser.fragment journal .commands (words ++ tokens ++ rest) =
            .ok (.node (.chain (action.holding modifiers :: actions))) := by
  obtain ⟨-, -, hcommand⟩ := (Parser.fragment_eq_ok_iff rfl).mp hcommand
  obtain ⟨action, rfl⟩ := hcommand.shaped
  have hheld := hcommand.holding hwords hnonempty
  have hsome : words ++ tokens ≠ [] := by simp [hnonempty]
  refine ⟨action, rfl, ?_, fun rest chain hrest hlong => ?_⟩
  · exact (Parser.fragment_eq_ok_iff rfl).mpr ⟨hsome, by rwa [List.length_append], hheld⟩
  · obtain ⟨-, -, hrest⟩ := (Parser.fragment_eq_ok_iff rfl).mp hrest
    obtain ⟨first, more, rfl⟩ := hrest.shaped
    refine ⟨first :: more, rfl, (Parser.fragment_eq_ok_iff rfl).mpr ⟨?_, ?_, ?_⟩⟩
    · simp [hnonempty]
    · rwa [List.length_append, List.length_append]
    · exact hheld.chain_cons hrest

/-- A modifier that is said twice is held twice, outside the one that the command
holds itself; the bracket after that is typed without any of them. -/
theorem control_twice_around_alt_up :
    let words : List Token := [⟨"control", 0, none⟩, ⟨"shift", 1, none⟩, ⟨"control", 2, none⟩]
    let modifiers : List Modifier := [.control, .shift, .control]
    let tokens : List Token := [⟨"alt", 3, none⟩, ⟨"up", 4, none⟩, ⟨"two", 5, none⟩]
    let rest : List Token := [⟨"left", 6, none⟩, ⟨"square", 7, none⟩]
    let parser : Parser := { entry := .strict }
    let steps : Action := .times 2 (.move .up)
    Modifier.Named words modifiers ∧ words ≠ [] ∧
    words.length + tokens.length + rest.length ≤ Limits.tokens ∧
    parser.fragment {} .command tokens = .ok (.node (.hold [.alt] steps)) ∧
    parser.fragment {} .commands rest = .ok (.node (.chain [.key "leftsquare"])) ∧
    parser.fragment {} .command (words ++ tokens) =
      .ok (.node (.hold [.control, .shift, .control, .alt] steps)) ∧
    parser.fragment {} .commands (words ++ tokens ++ rest) =
      .ok (.node (.chain
        [.hold [.control, .shift, .control, .alt] steps, .key "leftsquare"])) := by
  intro words modifiers tokens rest parser steps
  have hwords : Modifier.Named words modifiers :=
    .cons (by decide) (.cons (by decide) (.cons (by decide) .nil))
  have hmove : Says .movement tokens.tail (.node steps) :=
    says_movement.mpr ⟨_, _, .up, rfl, rfl,
      .inr ⟨2, says_group_of_spell (show 2 < 1000 by decide) (by decide), rfl⟩⟩
  have halt : Says .command tokens (.node (.hold [.alt] steps)) :=
    (says_command.mpr ⟨.movement, by decide, hmove⟩).under (by decide)
  have hkey : Says .character rest (.node (.key "leftsquare")) :=
    says_character.mpr ⟨(["left", "square"], "leftsquare"), by decide, rfl, rfl⟩
  have htokens : parser.fragment {} .command tokens = .ok (.node (.hold [.alt] steps)) :=
    (Parser.fragment_eq_ok_iff rfl).mpr ⟨by simp [tokens], by decide, halt⟩
  have hrest : parser.fragment {} .commands rest = .ok (.node (.chain [.key "leftsquare"])) :=
    (Parser.fragment_eq_ok_iff rfl).mpr ⟨by simp [rest], by decide, .chain_single (by decide) hkey⟩
  obtain ⟨action, haction, hheld, hchain⟩ := modifiers_stack parser {} words tokens modifiers _
    hwords (by simp [words]) (by decide) htokens
  cases haction
  obtain ⟨actions, hactions, hboth⟩ := hchain rest _ hrest (by decide)
  cases hactions
  exact ⟨hwords, by simp [words], by decide, htokens, hrest, hheld, hboth⟩

end SpokenKeys
