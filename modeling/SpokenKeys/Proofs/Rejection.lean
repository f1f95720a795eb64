import SpokenKeys.Proofs.CommandSize
import SpokenKeys.Proofs.SleepGate

/-!
What an utterance that is not accepted is rejected for. Recognition stops at the
first label that no sentence goes on through. Where the utterance is closed there
always is one, because nothing follows the closing marker of a sentence.
-/

namespace SpokenKeys

/-- The place where labels that are not derived are rejected: the first one that
no sentence goes on through, or the last one of labels that begin a sentence. -/
def Grammar.RejectsAt (grammar : Grammar) (start : Rule) (labels : List String)
    (last : Nat) : Prop :=
  last < labels.length ∧
    (∀ earlier < last, grammar.Begins start (labels.take (earlier + 1))) ∧
    (¬ grammar.Begins start (labels.take (last + 1)) ∨
      last + 1 = labels.length ∧ grammar.Begins start labels)

theorem Grammar.Begins.take {grammar : Grammar} {start : Rule} {labels : List String}
    {position : Nat} (h : grammar.Begins start (labels.take position)) {earlier : Nat}
    (hle : earlier ≤ position) : grammar.Begins start (labels.take earlier) := by
  obtain ⟨rest, hsentence⟩ := h
  refine ⟨(labels.take position).drop earlier ++ rest, ?_⟩
  rwa [← span, ← List.append_assoc, take_append_span labels hle]

/-- Labels are rejected at one place only. -/
theorem Grammar.RejectsAt.unique {grammar : Grammar} {start : Rule} {labels : List String}
    {last other : Nat} (h : grammar.RejectsAt start labels last)
    (hother : grammar.RejectsAt start labels other) : last = other := by
  have hle {last other : Nat} (h : grammar.RejectsAt start labels last)
      (hother : grammar.RejectsAt start labels other) : other ≤ last := by
    by_contra hlt
    obtain ⟨-, -, hafter⟩ := h
    rcases hafter with hunviable | ⟨hlast, -⟩
    · exact hunviable (hother.2.1 last (Nat.not_le.mp hlt))
    · have hinside := hother.1
      omega
  exact Nat.le_antisymm (hle hother h) (hle h hother)

namespace Chart

variable {grammar : Grammar} {start : Rule} {labels : List String} {position last : Nat}

/-- Something is reached exactly where the labels so far begin a sentence. -/
theorem exists_reached_iff (hproductive : Productive grammar)
    (hposition : position ≤ labels.length) :
    (∃ item, Reached grammar start labels position item) ↔
      grammar.Begins start (labels.take position) := by
  constructor
  · rintro ⟨item, hitem⟩
    exact begins_of_reached hproductive hitem
  · exact reached_of_begins hposition

/-- Both ways in which recognition stops agree on the place. -/
theorem rejectsAt_of_stopsAt (hproductive : Productive grammar) (hnonempty : labels ≠ [])
    (h : StopsAt grammar start labels last) : grammar.RejectsAt start labels last := by
  have hlength := List.length_pos_of_ne_nil hnonempty
  rcases h with ⟨hlt, hnone, hsome⟩ | ⟨rfl, hsome⟩
  · refine ⟨hlt, fun earlier hearlier => ?_, .inl fun hbegins => ?_⟩
    · have hbegins := (exists_reached_iff hproductive (Nat.le_of_lt hlt)).mp (hsome (by omega))
      exact hbegins.take hearlier
    · obtain ⟨item, hitem⟩ := (exists_reached_iff hproductive hlt).mpr hbegins
      exact hnone item hitem
  · have hbegins := (exists_reached_iff hproductive (Nat.le_refl _)).mp (hsome hlength)
    refine ⟨by omega, fun earlier hearlier => hbegins.take (by omega), .inr ⟨by omega, ?_⟩⟩
    rwa [List.take_length] at hbegins

end Chart

namespace Commands

variable {start rule : Rule} {tokens : List Token} {labels : List String}

/-- Within the limit on tokens there is a chart, or a place of rejection. -/
theorem build_cases (start : Rule) (hlength : tokens.length ≤ Limits.tokens) :
    (∃ chart, Chart.build grammar start tokens = .ok chart ∧
      grammar.Generates start (tokens.map Token.kind)) ∨
    (∃ last, Chart.build grammar start tokens = .error (.rejected last) ∧
      Chart.StopsAt grammar start (tokens.map Token.kind) last ∧
      ¬ grammar.Generates start (tokens.map Token.kind)) := by
  rcases Chart.build_cases grammar start tokens with
    ⟨chart, hchart, -, -, -, hgenerates⟩ | hrejected | ⟨sets, -, hexact, -, hlarge⟩
  · exact .inl ⟨chart, hchart, hgenerates⟩
  · exact .inr hrejected
  · have hle := totalSize_le (by simpa using hlength) hexact
    exact absurd hlarge (Nat.not_lt.mpr hle)

theorem build_rejects (hnonempty : tokens ≠ []) (hlength : tokens.length ≤ Limits.tokens)
    (hnot : ¬ grammar.Generates start (tokens.map Token.kind)) :
    ∃ last, Chart.build grammar start tokens = .error (.rejected last) ∧
      grammar.RejectsAt start (tokens.map Token.kind) last := by
  rcases build_cases start hlength with ⟨-, -, hgenerates⟩ | ⟨last, hlast, hstops, -⟩
  · exact absurd hgenerates hnot
  · exact ⟨last, hlast, Chart.rejectsAt_of_stopsAt productive (by simpa using hnonempty) hstops⟩

/-- Why no derivation is chosen: there are no tokens, or too many, or they are
rejected at one of them. -/
inductive Refuses (start : Rule) (tokens : List Token) : ParseError → Prop where
  | empty : tokens = [] → Refuses start tokens .emptyStream
  | tooLong : Limits.tokens < tokens.length →
      Refuses start tokens (.tooLong tokens.length Limits.tokens)
  | rejected {last : Nat} {token : Token} :
      tokens ≠ [] → tokens.length ≤ Limits.tokens → tokens[last]? = some token →
      Chart.build grammar start tokens = .error (.rejected last) →
      grammar.RejectsAt start (tokens.map Token.kind) last →
      ¬ grammar.Generates start (tokens.map Token.kind) →
      Refuses start tokens (.unexpectedToken token)

theorem refuses_of_chosen {error : ParseError} (h : chosen grammar start tokens = .error error) :
    Refuses start tokens error := by
  by_cases hempty : tokens = []
  · subst hempty
    cases h
    exact .empty rfl
  by_cases hlong : Limits.tokens < tokens.length
  · rw [chosen, if_neg (by simpa using hempty), if_pos hlong] at h
    cases h
    exact .tooLong hlong
  have hlength : tokens.length ≤ Limits.tokens := Nat.not_lt.mp hlong
  rcases chosen_cases start hempty hlength with
    ⟨chart, tree, ties, hchosen, -⟩ | ⟨failure, hbuild, hchosen⟩
  · rw [hchosen] at h
    cases h
  rcases build_cases start hlength with ⟨chart, hchart, -⟩ | ⟨last, hlast, hstops, hnot⟩
  · rw [hbuild] at hchart
    cases hchart
  rw [hbuild] at hlast
  cases hlast
  have hrejects := Chart.rejectsAt_of_stopsAt productive (by simpa using hempty) hstops
  -- The place of rejection is one of the tokens.
  have hlt := hrejects.1
  rw [List.length_map] at hlt
  have htoken := List.getElem?_eq_getElem hlt
  rw [hchosen, ParseError.ofFailure, htoken] at h
  cases h
  exact .rejected hempty hlength htoken hbuild hrejects hnot

/-- The cause lies in the tokens. -/
theorem Refuses.ne_internal {error : ParseError} (h : Refuses start tokens error)
    (message : String) : error ≠ .internal message := by
  cases h <;> simp

theorem Refuses.ne_tooDeep {error : ParseError} (h : Refuses start tokens error) (max : Nat) :
    error ≠ .tooDeep max := by
  cases h <;> simp

def isClosing : Symbol → Bool
  | .terminal label => label == Token.endLabel
  | .rule rule => frame.rooted rule

/-- Inputs end with the only closing symbol of their productions; other
productions have none. -/
def closesOnce (production : Production) : Bool :=
  if frame.rooted production.lhs then
    production.rhs.getLast? == some close && !production.rhs.dropLast.any isClosing
  else !production.rhs.any isClosing

theorem closesOnce_of_mem : ∀ production ∈ grammar.table, closesOnce production = true :=
  forall_table (by decide)

/-- The closing marker is only in what closing symbols derive. -/
theorem endLabel_not_mem {symbols : List Symbol} (hsymbols : symbols.any isClosing = false)
    (h : Derives grammar.table symbols labels) : Token.endLabel ∉ labels := by
  have hclosed : ∀ production ∈ grammar.table, (!isClosing (.rule production.lhs)) = true →
      (production.rhs.all fun symbol => !isClosing symbol) = true := by
    intro production hmem hinner
    have hcloses := closesOnce_of_mem production hmem
    rw [Bool.not_eq_true', isClosing] at hinner
    rwa [closesOnce, if_neg (by simp [hinner]), List.not_any_eq_all_not] at hcloses
  intro hmem
  have hkept := h.forall_of_closed hclosed (by rw [← List.not_any_eq_all_not, hsymbols]; rfl) _ hmem
  exact absurd hkept (by decide)

theorem exists_closed (hrooted : frame.rooted rule = true) (h : grammar.Generates rule labels) :
    ∃ inner, labels = inner ++ [Token.endLabel] ∧ Token.endLabel ∉ inner := by
  obtain ⟨production, hmem, rfl, hderives⟩ := Derives.single_iff.mp h
  have hcloses := closesOnce_of_mem production hmem
  rw [closesOnce, if_pos hrooted, Bool.and_eq_true, beq_iff_eq, Bool.not_eq_true'] at hcloses
  obtain ⟨hlast, hinner⟩ := hcloses
  rw [← List.dropLast_append_getLast? close hlast] at hderives
  obtain ⟨inner, back, rfl, hfront, hback⟩ := Derives.append_iff.mp hderives
  exact ⟨inner, congrArg (inner ++ ·) (Derives.single_terminal_iff.mp hback),
    endLabel_not_mem hinner hfront⟩

theorem entry_rooted (entry : Entry) : frame.rooted entry.rule = true := by
  cases entry <;> rfl

theorem generates_of_begins (entry : Entry) (hclosed : labels.getLast? = some Token.endLabel)
    (h : grammar.Begins entry.rule labels) : grammar.Generates entry.rule labels := by
  obtain ⟨rest, hsentence⟩ := h
  obtain ⟨inner, hequal, hnot⟩ := exists_closed (entry_rooted entry) hsentence
  rcases List.eq_nil_or_concat rest with rfl | ⟨more, last, rfl⟩
  · rwa [List.append_nil] at hsentence
  · rw [List.concat_eq_append, ← List.append_assoc] at hequal
    -- With more after it the marker would be inside.
    have hinner := (List.append_inj' hequal rfl).1
    have hmem : Token.endLabel ∈ inner :=
      hinner ▸ List.mem_append_left _ (List.mem_of_getLast? hclosed)
    exact absurd hmem hnot

end Commands

open Commands

/-- The token at the place of rejection is unexpected. -/
theorem Parser.heard_of_rejected (parser : Parser) {tokens : List Token} {last : Nat}
    {token : Token} (hlength : tokens.length ≤ Limits.tokens)
    (hbuild : Chart.build grammar parser.entry.rule tokens = .error (.rejected last))
    (htoken : tokens[last]? = some token) :
    (parser.heard tokens).1 = .error (.unexpectedToken token) := by
  have hnonempty : tokens ≠ [] := by
    rintro rfl
    cases htoken
  rcases chosen_cases parser.entry.rule hnonempty hlength with
    ⟨chart, tree, ties, hchosen, -⟩ | ⟨failure, hfailure, hchosen⟩
  · rw [(chosen_eq_ok hchosen).1] at hbuild
    cases hbuild
  · rw [hbuild] at hfailure
    cases hfailure
    rw [(heard_of_error hchosen).1, ParseError.ofFailure, htoken]

theorem Parser.refuses_of_heard_error {parser : Parser} {tokens : List Token} {error : ParseError}
    (h : (parser.heard tokens).1 = .error error) : Refuses parser.entry.rule tokens error := by
  cases hchosen : chosen grammar parser.entry.rule tokens with
  | error cause =>
      rw [(heard_of_error hchosen).1] at h
      cases h
      exact refuses_of_chosen hchosen
  | ok choice =>
      obtain ⟨chart, tree, ties⟩ := choice
      obtain ⟨verdict, -, hdecides⟩ := exists_verdict hchosen
      obtain ⟨outcome, houtcome, -⟩ := heard_of_decides hchosen hdecides
      rw [h] at houtcome
      cases houtcome

/-- A closed utterance that is derived is accepted; in any other the first token
that no sentence goes on through is unexpected. -/
theorem Parser.heard_closed (parser : Parser) {tokens : List Token}
    (hclosed : (tokens.map Token.kind).getLast? = some Token.endLabel)
    (hlength : tokens.length ≤ Limits.tokens) :
    (grammar.Generates parser.entry.rule (tokens.map Token.kind) ∧
      ∃ outcome, (parser.heard tokens).1 = .ok outcome) ∨
    (¬ grammar.Generates parser.entry.rule (tokens.map Token.kind) ∧
      ∃ last token, tokens[last]? = some token ∧
        (∀ earlier < last,
          grammar.Begins parser.entry.rule ((tokens.map Token.kind).take (earlier + 1))) ∧
        ¬ grammar.Begins parser.entry.rule ((tokens.map Token.kind).take (last + 1)) ∧
        (parser.heard tokens).1 = .error (.unexpectedToken token)) := by
  cases hchosen : chosen grammar parser.entry.rule tokens with
  | ok choice =>
      obtain ⟨chart, tree, ties⟩ := choice
      obtain ⟨verdict, -, hdecides⟩ := exists_verdict hchosen
      obtain ⟨outcome, houtcome, -⟩ := heard_of_decides hchosen hdecides
      exact .inl ⟨generates_of_chosen hchosen, outcome, houtcome⟩
  | error error =>
      have hheard := (heard_of_error hchosen).1
      cases refuses_of_chosen hchosen with
      | empty hempty =>
          subst hempty
          cases hclosed
      | tooLong hlong => exact absurd hlong (Nat.not_lt.mpr hlength)
      | @rejected last token _ _ htoken _ hrejects hnot =>
          obtain ⟨-, hbefore, hafter⟩ := hrejects
          refine .inr ⟨hnot, last, token, htoken, hbefore, ?_, hheard⟩
          rcases hafter with hunviable | ⟨-, hbegins⟩
          · exact hunviable
          · exact absurd (generates_of_begins parser.entry hclosed hbegins) hnot

/-- Labels that are not derived, unless they are too many, are rejected at the
first one that no sentence goes on through, or at the last one if the labels
begin a sentence. A closed utterance that is not derived therefore has a first
token that no utterance goes on through, and this token is unexpected, whatever
the entry point and the session; every other one is accepted. -/
theorem first_unviable_rejected :
    (∀ (start : Rule) (tokens : List Token),
      tokens ≠ [] → tokens.length ≤ Limits.tokens →
      ¬ grammar.Generates start (tokens.map Token.kind) →
      ∃ last, Chart.build grammar start tokens = .error (.rejected last) ∧
        grammar.RejectsAt start (tokens.map Token.kind) last) ∧
    (∀ (parser : Parser) (tokens : List Token) (journal : Log.Journal),
      (tokens.map Token.kind).getLast? = some Token.endLabel →
      tokens.length ≤ Limits.tokens →
      let reply := ((parser.parse tokens).run journal).1.1
      let sentence := grammar.Generates parser.entry.rule (tokens.map Token.kind)
      let viable := fun position =>
        grammar.Begins parser.entry.rule ((tokens.map Token.kind).take (position + 1))
      (sentence ∧ ∃ outcome, reply = .ok outcome) ∨
      (¬ sentence ∧ ∃ last token error, tokens[last]? = some token ∧
        (∀ earlier < last, viable earlier) ∧ ¬ viable last ∧
        reply = .error error ∧ error = .unexpectedToken token ∧
        error.wordNo? = some token.wordNo)) := by
  refine ⟨fun start tokens hnonempty hlength hnot => build_rejects hnonempty hlength hnot,
    fun parser tokens journal hclosed hlength => ?_⟩
  simp only [Parser.parse_fst]
  rcases parser.heard_closed hclosed hlength with
    haccepted | ⟨hnot, last, token, htoken, hbefore, hafter, hreply⟩
  · exact .inl haccepted
  · exact .inr ⟨hnot, last, token, _, htoken, hbefore, hafter, hreply, rfl, rfl⟩

/-- A command that is not complete is rejected at the closing marker. -/
theorem incomplete_command_rejected :
    let tokens := [Token.ofWord Lexicon.sky 0, Token.closing 1]
    tokens ≠ [] ∧ tokens.length ≤ Limits.tokens ∧
      ¬ grammar.Generates .input (tokens.map Token.kind) ∧
      grammar.RejectsAt .input (tokens.map Token.kind) 1 ∧
      (tokens.map Token.kind).getLast? = some Token.endLabel ∧
      ((({ entry := .strict } : Parser).parse tokens).run {}).1.1 =
        .error (.unexpectedToken (.closing 1)) := by
  intro tokens
  have hcheck : (Chart.build grammar .input tokens).map (fun _ => ()) =
      .error (.rejected 1) := by
    decide +kernel
  have hlength : tokens.length ≤ Limits.tokens := by decide
  have hnot : ¬ grammar.Generates .input (tokens.map Token.kind) := by
    rcases build_cases .input hlength with ⟨chart, hchart, -⟩ | ⟨last, -, -, hnot⟩
    · rw [hchart] at hcheck
      cases hcheck
    · exact hnot
  obtain ⟨last, hlast, hrejects⟩ :=
    first_unviable_rejected.1 .input tokens (List.cons_ne_nil _ _) hlength hnot
  rw [hlast] at hcheck
  cases hcheck
  refine ⟨List.cons_ne_nil _ _, hlength, hnot, hrejects, rfl, ?_⟩
  rcases first_unviable_rejected.2 { entry := .strict } tokens {} rfl hlength with
    ⟨hgenerates, -⟩ | ⟨-, place, token, error, htoken, hbefore, hafter, hreply, rfl, -⟩
  · exact absurd hgenerates hnot
  · -- The first token begins a sentence, so the second one is to blame.
    have hplace : place < tokens.length := (List.getElem?_eq_some_iff.mp htoken).1
    have hpos : place ≠ 0 := by
      rintro rfl
      exact hafter (hrejects.2.1 0 Nat.one_pos)
    obtain rfl : place = 1 := by
      have : tokens.length = 2 := rfl
      omega
    cases htoken
    exact hreply

end SpokenKeys
