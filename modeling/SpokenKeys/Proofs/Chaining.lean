import SpokenKeys.Proofs.Phrases

/-!
Chains of commands: saying one chain after the other says both as one chain, and
a chain is divided into its commands in one way only.
-/

namespace SpokenKeys

open Commands

namespace Commands

variable {front back : List Token} {first second : List Action}

theorem Says.chain_append (hfront : Says .commands front (.node (.chain first)))
    (hback : Says .commands back (.node (.chain second))) :
    Says .commands (front ++ back) (.node (.chain (first ++ second))) := by
  obtain ⟨pieces, actions, hnonempty, rfl, hpieces, hfirst⟩ := says_commands.mp hfront
  obtain ⟨more, others, -, rfl, hmore, hsecond⟩ := says_commands.mp hback
  cases hfirst
  cases hsecond
  exact says_commands.mpr ⟨pieces ++ more, first ++ second, by simp [hnonempty],
    List.flatten_append, List.rel_append hpieces hmore, rfl⟩

theorem Says.chain_cons {action : Action} (hfront : Says .command front (.node action))
    (hback : Says .commands back (.node (.chain second))) :
    Says .commands (front ++ back) (.node (.chain (action :: second))) :=
  hfront.chain.chain_append hback

/-- No command can go on as the next one begins. -/
theorem pieces_unique {pieces others : List (List Token)}
    (hpieces : ∀ piece ∈ pieces, ∃ value, Says .command piece value)
    (hothers : ∀ piece ∈ others, ∃ value, Says .command piece value)
    (hequal : pieces.flatten = others.flatten) : pieces = others := by
  have hderives {pieces : List (List Token)}
      (h : ∀ piece ∈ pieces, ∃ value, Says .command piece value) :
      ∀ labels ∈ pieces.map (List.map Token.kind),
        Derives grammar.table [.rule .command] labels := by
    intro labels hmem
    obtain ⟨piece, hpiece, rfl⟩ := List.mem_map.mp hmem
    obtain ⟨value, hphrase⟩ := h piece hpiece
    exact hphrase.derives
  have hkinds : (pieces.map (List.map Token.kind)).flatten =
      (others.map (List.map Token.kind)).flatten := by
    rw [← List.map_flatten, ← List.map_flatten, hequal]
  have hsame := fits.phrases_unique (by decide) (by decide) (hderives hpieces)
    (hderives hothers) hkinds
  -- Pieces of one list are told by their lengths.
  have hlengths : pieces.map List.length = others.map List.length := by
    have hmap := congrArg (List.map List.length) hsame
    simpa [Function.comp_def] using hmap
  exact List.eq_iff_flatten_eq.mpr ⟨hequal, hlengths⟩

end Commands

namespace Parser

variable {parser : Parser} {journal : Log.Journal} {rule : Rule} {tokens : List Token}
  {value : Value}

/-- What a parser makes of tokens as a nonterminal. -/
def fragment (parser : Parser) (journal : Log.Journal) (rule : Rule) (tokens : List Token) :
    Except ParseError Value :=
  ((parser.parseFragment rule tokens).run journal).1.1

theorem fragment_eq_ok_iff (hplain : rule.turnsSession = false) :
    parser.fragment journal rule tokens = .ok value ↔
      tokens ≠ [] ∧ tokens.length ≤ Limits.tokens ∧ Says rule tokens value :=
  parseFragment_eq_ok_iff hplain journal

theorem refuses_of_fragment_error {error : ParseError}
    (h : parser.fragment journal rule tokens = .error error) : Refuses rule tokens error := by
  rw [fragment, parseFragment_fst] at h
  rcases interpretTokens_cases rule tokens parser.session with
    ⟨parsed, after, hrun, -⟩ | ⟨cause, hrun, hrefuses⟩
  · rw [hrun] at h
    cases h
  · rw [hrun] at h
    cases h
    exact hrefuses

theorem fragment_chain_append {front back : List Token} {first second : List Action}
    (hlength : front.length + back.length ≤ Limits.tokens)
    (hfront : parser.fragment journal .commands front = .ok (.node (.chain first)))
    (hback : parser.fragment journal .commands back = .ok (.node (.chain second))) :
    parser.fragment journal .commands (front ++ back) = .ok (.node (.chain (first ++ second))) := by
  obtain ⟨hnonempty, -, hfront⟩ := (fragment_eq_ok_iff rfl).mp hfront
  obtain ⟨-, -, hback⟩ := (fragment_eq_ok_iff rfl).mp hback
  refine (fragment_eq_ok_iff rfl).mpr ⟨?_, ?_, hfront.chain_append hback⟩
  · simp [hnonempty]
  · rwa [List.length_append]

/-- The pieces of an accepted chain are accepted commands. -/
theorem exists_pieces_of_fragment (h : parser.fragment journal .commands tokens = .ok value) :
    ∃ pieces actions, pieces.flatten = tokens ∧ value = .node (.chain actions) ∧
      List.Forall₂ (fun piece action => piece ≠ [] ∧
        parser.fragment journal .command piece = .ok (.node action)) pieces actions := by
  obtain ⟨-, hlength, hphrase⟩ := (fragment_eq_ok_iff rfl).mp h
  obtain ⟨pieces, actions, -, rfl, hpieces, rfl⟩ := says_commands.mp hphrase
  refine ⟨pieces, actions, rfl, rfl, ?_⟩
  have hshorter : ∀ piece ∈ pieces, piece.length ≤ Limits.tokens := by
    intro piece hmem
    exact (List.sublist_flatten_of_mem hmem).length_le.trans hlength
  clear h hlength hphrase
  induction hpieces with
  | nil => exact .nil
  | @cons piece action _ _ hpiece _ ih =>
      obtain ⟨hle, hmore⟩ := List.forall_mem_cons.mp hshorter
      have hnonempty : piece ≠ [] := by
        rintro rfl
        exact absurd hpiece.shortest_le (by decide)
      exact .cons ⟨hnonempty, (fragment_eq_ok_iff rfl).mpr ⟨hnonempty, hle, hpiece⟩⟩ (ih hmore)

/-- Accepted commands are the only division into accepted commands. -/
theorem fragment_pieces_unique {pieces others : List (List Token)}
    (hpieces : ∀ piece ∈ pieces, ∃ value, parser.fragment journal .command piece = .ok value)
    (hothers : ∀ piece ∈ others, ∃ value, parser.fragment journal .command piece = .ok value)
    (hequal : others.flatten = pieces.flatten) : others = pieces := by
  have hphrase {pieces : List (List Token)}
      (h : ∀ piece ∈ pieces, ∃ value, parser.fragment journal .command piece = .ok value) :
      ∀ piece ∈ pieces, ∃ value, Says .command piece value := by
    intro piece hmem
    obtain ⟨value, hvalue⟩ := h piece hmem
    obtain ⟨-, -, hvalue⟩ := (fragment_eq_ok_iff rfl).mp hvalue
    exact ⟨value, hvalue⟩
  exact pieces_unique (hphrase hothers) (hphrase hpieces) hequal

end Parser

/-- Chaining is concatenation. Two accepted chains that are said one after the
other, within the limit on tokens, are accepted as one chain, of the commands of
both. And an accepted chain divides in exactly one way into accepted commands,
whose actions are those of the chain, in the order they are said. -/
theorem chaining_concatenates (parser : Parser) (journal : Log.Journal) :
    (∀ (front back : List Token) (first second : List Action),
      front.length + back.length ≤ Limits.tokens →
      parser.fragment journal .commands front = .ok (.node (.chain first)) →
      parser.fragment journal .commands back = .ok (.node (.chain second)) →
      parser.fragment journal .commands (front ++ back) =
        .ok (.node (.chain (first ++ second)))) ∧
    ∀ (tokens : List Token) (value : Value),
      parser.fragment journal .commands tokens = .ok value →
      ∃ (pieces : List (List Token)) (actions : List Action),
        pieces.flatten = tokens ∧ value = .node (.chain actions) ∧
        List.Forall₂ (fun piece action => piece ≠ [] ∧
          parser.fragment journal .command piece = .ok (.node action)) pieces actions ∧
        ∀ others : List (List Token), others.flatten = tokens →
          (∀ piece ∈ others, ∃ other, parser.fragment journal .command piece = .ok other) →
          others = pieces := by
  constructor
  · intro front back first second hlength hfront hback
    exact Parser.fragment_chain_append hlength hfront hback
  · intro tokens value haccepted
    obtain ⟨pieces, actions, rfl, hvalue, hpieces⟩ := Parser.exists_pieces_of_fragment haccepted
    refine ⟨pieces, actions, rfl, hvalue, hpieces, ?_⟩
    intro others hequal hothers
    have haccepted : List.Forall₂ (fun piece action =>
        (∃ other, parser.fragment journal .command piece = .ok other) ∧
          parser.fragment journal .command piece = .ok (.node action)) pieces actions :=
      hpieces.imp fun piece action h => ⟨⟨_, h.2⟩, h.2⟩
    exact Parser.fragment_pieces_unique ((List.forall₂_and_left _ _).mp haccepted).1 hothers hequal

/-- A step to the left and an opening bracket, which begins with the same word. -/
theorem step_and_bracket_concatenate :
    let step : List Token := [⟨"left", 0, none⟩]
    let bracket : List Token := [⟨"left", 0, none⟩, ⟨"square", 1, none⟩]
    let parser : Parser := { entry := .strict }
    parser.fragment {} .commands step = .ok (.node (.chain [.move .left])) ∧
    parser.fragment {} .commands bracket = .ok (.node (.chain [.key "leftsquare"])) ∧
    parser.fragment {} .commands (step ++ bracket) =
      .ok (.node (.chain [.move .left, .key "leftsquare"])) := by
  intro step bracket parser
  have hmove : Says .movement step (.node (.move .left)) :=
    says_movement.mpr ⟨_, [], .left, rfl, rfl, .inl ⟨rfl, rfl⟩⟩
  have hkey : Says .character bracket (.node (.key "leftsquare")) :=
    says_character.mpr ⟨(["left", "square"], "leftsquare"), by decide, rfl, rfl⟩
  have hchain {kind : Rule} {tokens : List Token} {action : Action} (hkind : kind ∈ kinds)
      (hphrase : Says kind tokens (.node action)) : Says .commands tokens (.node (.chain [action])) :=
    says_commands.mpr ⟨[tokens], [action], by simp, List.flatten_singleton,
      .cons (says_command.mpr ⟨kind, hkind, hphrase⟩) .nil, rfl⟩
  have hstep : parser.fragment {} .commands step = .ok (.node (.chain [.move .left])) :=
    (Parser.fragment_eq_ok_iff rfl).mpr ⟨by simp [step], by decide, hchain (by decide) hmove⟩
  have hbracket : parser.fragment {} .commands bracket = .ok (.node (.chain [.key "leftsquare"])) :=
    (Parser.fragment_eq_ok_iff rfl).mpr ⟨by simp [bracket], by decide, hchain (by decide) hkey⟩
  exact ⟨hstep, hbracket,
    (chaining_concatenates parser {}).1 step bracket _ _ (by decide) hstep hbracket⟩

end SpokenKeys
