import SpokenKeys.Proofs.Chaining
import SpokenKeys.Proofs.Hearing
import SpokenKeys.Proofs.SpokenNumbers

/-!
Free text. A run of words after its keyword is typed whole, word for word, number
words included; the commands that follow the run are carried out after it.
-/

namespace SpokenKeys

open Commands

/-- The action that types words one after the other. -/
def Action.typing (spellings : List String) : Action := .words (spellings.map .word)

namespace Commands

variable {keyword : Token} {run : List Token}

theorem Says.phrase (hkeyword : keyword.kind = Lexicon.phrase) (hnonempty : run ≠ [])
    (hwords : ∀ token ∈ run, token.kind ∈ rawFirst) :
    Says .command (keyword :: run) (.node (.typing (run.map Token.text))) := by
  have hrun : Says .wordRun run (.node (.typing (run.map Token.text))) :=
    says_wordRun.mpr ⟨hnonempty, hwords, by rw [Action.typing, List.map_map]; rfl⟩
  exact says_command.mpr ⟨.phrase, by decide,
    says_phrase.mpr ⟨keyword, run, rfl, hkeyword, hrun⟩⟩

/-- Both other keywords have the first word capitalised. -/
theorem Says.capitalized
    (hkeyword : keyword.kind = Lexicon.sentence ∨ keyword.kind = Lexicon.variable)
    (hnonempty : run ≠ []) (hwords : ∀ token ∈ run, token.kind ∈ rawFirst) :
    Says .command (keyword :: run)
      (.node (.typing ((run.map Token.text).modifyHead Text.capitalize))) := by
  cases run with
  | nil => exact absurd rfl hnonempty
  | cons first rest =>
      have hvalue : Action.typing (((first :: rest).map Token.text).modifyHead Text.capitalize) =
          .words (.word (Text.capitalize first.text) :: rest.map fun token => .word token.text) := by
        rw [Action.typing, List.map_cons, List.modifyHead_cons, List.map_cons, List.map_map]
        rfl
      rw [hvalue]
      rcases hkeyword with hkeyword | hkeyword
      · exact says_command.mpr ⟨.sentence, by decide,
          (says_capitalized .sentence [Lexicon.sentence] rfl (by simp) rfl).mpr
            ⟨keyword, first, rest, rfl, List.mem_singleton.mpr hkeyword, hwords, rfl⟩⟩
      · exact says_command.mpr ⟨.identifier, by decide,
          (says_capitalized .identifier [Lexicon.variable] rfl (by simp) rfl).mpr
            ⟨keyword, first, rest, rfl, List.mem_singleton.mpr hkeyword, hwords, rfl⟩⟩

end Commands

/-- An awake parser carries a command out before the ones that follow it. -/
theorem Parser.heard_command {parser : Parser} {front rest : List Token} {closing : Token}
    {action : Action} {actions : List Action} (hsession : parser.session = .awake)
    (hfront : Says .command front (.node action))
    (hrest : rest = [] ∧ actions = [] ∨ Says .commands rest (.node (.chain actions)))
    (hclosing : closing.kind = Token.endLabel)
    (hlength : (front ++ rest ++ [closing]).length ≤ Limits.tokens) :
    ∃ outcome, (parser.heard (front ++ rest ++ [closing])).1 = .ok outcome ∧
      outcome.action = .chain (action :: actions) := by
  have hbody : Says .commands (front ++ rest) (.node (.chain (action :: actions))) := by
    rcases hrest with ⟨rfl, rfl⟩ | hrest
    · rw [List.append_nil]
      exact hfront.chain
    · exact hfront.chain_cons hrest
  exact heard_commands hsession hbody hclosing hlength

/-- Free text is taken whole and word for word. The keyword for a phrase, words
that are free text or number words, any commands or none, and the closing marker
are accepted by an awake parser: the words are typed in the order they are said,
each as it is spoken, and then the commands are carried out. The keywords for a
sentence and for a name do the same with the first word capitalised. -/
theorem free_text_verbatim (parser : Parser) (journal : Log.Journal) (keyword closing : Token)
    (run rest : List Token) (actions : List Action) (hsession : parser.session = .awake)
    (hnonempty : run ≠ [])
    (hwords : ∀ token ∈ run, token.kind = Token.anyLabel ∨
      token.kind ∈ ["zero", "one", "two", "three", "four", "five", "six", "seven", "eight",
        "nine", "to", "for"])
    (hrest : rest = [] ∧ actions = [] ∨
      parser.fragment journal .commands rest = .ok (.node (.chain actions)))
    (hclosing : closing.kind = Token.endLabel)
    (hlength : (keyword :: run ++ rest ++ [closing]).length ≤ Limits.tokens) :
    let reply := ((parser.parse (keyword :: run ++ rest ++ [closing])).run journal).1.1
    let types := fun spellings => ∃ outcome, reply = .ok outcome ∧
      outcome.action = .chain (.typing spellings :: actions)
    (keyword.kind = "phrase" → types (run.map Token.text)) ∧
    (keyword.kind = "sentence" ∨ keyword.kind = "variable" →
      types ((run.map Token.text).modifyHead Text.capitalize)) := by
  have hraw : ∀ token ∈ run, token.kind ∈ rawFirst := fun token hmem =>
    List.mem_cons.mpr (hwords token hmem)
  have hbehind : rest = [] ∧ actions = [] ∨ Says .commands rest (.node (.chain actions)) :=
    hrest.imp_right fun h => ((Parser.fragment_eq_ok_iff rfl).mp h).2.2
  simp only [Parser.parse_fst]
  exact ⟨fun hkeyword =>
      Parser.heard_command hsession (.phrase hkeyword hnonempty hraw) hbehind hclosing hlength,
    fun hkeyword =>
      Parser.heard_command hsession (.capitalized hkeyword hnonempty hraw) hbehind hclosing
        hlength⟩

/-- A number word begins the sentence and its homophone ends it, and neither
counts: the number that does is the one after the step. -/
theorem sentence_of_number_words :
    let keyword := Token.ofWord "sentence" 0
    let run := [Token.ofWord "two" 1, .free "apples" 2, .ofWord "to" 3]
    let rest := [Token.ofWord "up" 4, .ofWord "two" 5]
    let closing := Token.closing 6
    let parser : Parser := { entry := .tolerant }
    let steps : Action := .times 2 (.move .up)
    (∀ token ∈ run, token.kind = Token.anyLabel ∨
      token.kind ∈ ["zero", "one", "two", "three", "four", "five", "six", "seven", "eight",
        "nine", "to", "for"]) ∧
    parser.fragment {} .commands rest = .ok (.node (.chain [steps])) ∧
    (keyword :: run ++ rest ++ [closing]).length ≤ Limits.tokens ∧
    ∃ outcome,
      ((parser.parse (keyword :: run ++ rest ++ [closing])).run {}).1.1 = .ok outcome ∧
      outcome.action = .chain [.words [.word "Two", .word "apples", .word "to"], steps] := by
  intro keyword run rest closing parser steps
  have hwords : ∀ token ∈ run, token.kind = Token.anyLabel ∨
      token.kind ∈ ["zero", "one", "two", "three", "four", "five", "six", "seven", "eight",
        "nine", "to", "for"] := by
    decide
  have hlength : (keyword :: run ++ rest ++ [closing]).length ≤ Limits.tokens := by decide
  have hmove : Says .movement rest (.node steps) :=
    says_movement.mpr ⟨_, _, .up, rfl, rfl,
      .inr ⟨2, says_group_of_spell (show 2 < 1000 by decide) (by decide), rfl⟩⟩
  have hrest : parser.fragment {} .commands rest = .ok (.node (.chain [steps])) :=
    (Parser.fragment_eq_ok_iff rfl).mpr
      ⟨List.cons_ne_nil _ _, by decide, .chain_single (by decide) hmove⟩
  have hcapital : Text.capitalize "two" = "Two" := by decide
  obtain ⟨-, hsentence⟩ := free_text_verbatim parser {} keyword closing run rest [steps] rfl
    (List.cons_ne_nil _ _) hwords (.inr hrest) rfl hlength
  obtain ⟨outcome, houtcome, haction⟩ := hsentence (.inl rfl)
  refine ⟨hwords, hrest, hlength, outcome, houtcome, haction.trans ?_⟩
  exact congrArg (fun word => Action.chain [.words [.word word, .word "apples", .word "to"], steps])
    hcapital

end SpokenKeys
