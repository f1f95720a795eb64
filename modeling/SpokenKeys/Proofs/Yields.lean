import SpokenKeys.Proofs.Agreement

/-!
What tokens say, without chart, derivation and positions: symbols are said by
tokens one after the other, and every symbol yields a value. Parsing tokens as a
nonterminal gives a value exactly if the tokens yield it.
-/

namespace SpokenKeys

open SpokenKeys.Derivation Evaluation

/-- Symbols are said by tokens and yield values, by a table: a terminal yields its
token, and a nonterminal what a production's meaning gives for the values of the
right-hand side. -/
inductive Yields (table : List Production) : List Symbol → List Token → List Value → Prop where
  | nil : Yields table [] [] []
  | terminal {token : Token} {symbols : List Symbol} {tokens : List Token} {values : List Value} :
      Yields table symbols tokens values →
      Yields table (.terminal token.kind :: symbols) (token :: tokens) (.token token :: values)
  | rule {production : Production} {symbols : List Symbol} {inner tokens : List Token}
      {arguments values : List Value} {value : Value} :
      production ∈ table →
      Yields table production.rhs inner arguments →
      production.meaning.Gives arguments value →
      Yields table symbols tokens values →
      Yields table (.rule production.lhs :: symbols) (inner ++ tokens) (value :: values)

namespace Yields

variable {table : List Production} {symbols : List Symbol} {tokens : List Token}
  {values : List Value} {value : Value} {rule : Rule} {label : String}

@[simp] theorem nil_iff : Yields table [] tokens values ↔ tokens = [] ∧ values = [] := by
  constructor
  · intro h
    cases h
    exact ⟨rfl, rfl⟩
  · rintro ⟨rfl, rfl⟩
    exact .nil

theorem append {second : List Symbol} {back : List Token} {more : List Value}
    (h : Yields table symbols tokens values) (hsecond : Yields table second back more) :
    Yields table (symbols ++ second) (tokens ++ back) (values ++ more) := by
  induction h with
  | nil => exact hsecond
  | terminal _ ih => exact .terminal ih
  | rule hmem hinner hgives _ _ ih =>
      rw [List.append_assoc]
      exact .rule hmem hinner hgives ih

theorem terminal_iff : Yields table (.terminal label :: symbols) tokens values ↔
    ∃ token rest more, tokens = token :: rest ∧ values = .token token :: more ∧
      token.kind = label ∧ Yields table symbols rest more := by
  constructor
  · intro h
    cases h with
    | terminal hrest => exact ⟨_, _, _, rfl, rfl, rfl, hrest⟩
  · rintro ⟨token, rest, more, rfl, rfl, rfl, hrest⟩
    exact .terminal hrest

theorem single_iff : Yields table [.rule rule] tokens [value] ↔
    ∃ production ∈ table, production.lhs = rule ∧ ∃ arguments,
      Yields table production.rhs tokens arguments ∧
      production.meaning.Gives arguments value := by
  constructor
  · intro h
    cases h with
    | rule hmem hinner hgives hnil =>
        cases hnil
        rw [List.append_nil]
        exact ⟨_, hmem, rfl, _, hinner, hgives⟩
  · rintro ⟨production, hmem, rfl, arguments, hinner, hgives⟩
    rw [← List.append_nil tokens]
    exact .rule hmem hinner hgives .nil

theorem rule_iff : Yields table (.rule rule :: symbols) tokens values ↔
    ∃ front back first more, tokens = front ++ back ∧ values = first :: more ∧
      Yields table [.rule rule] front [first] ∧ Yields table symbols back more := by
  constructor
  · intro h
    cases h with
    | rule hmem hinner hgives hrest =>
        exact ⟨_, _, _, _, rfl, rfl, single_iff.mpr ⟨_, hmem, rfl, _, hinner, hgives⟩, hrest⟩
  · rintro ⟨front, back, first, more, rfl, rfl, hfirst, hrest⟩
    obtain ⟨production, hmem, rfl, arguments, hinner, hgives⟩ := single_iff.mp hfirst
    exact .rule hmem hinner hgives hrest

/-- The last nonterminal takes all the tokens that are left. -/
theorem last_iff : Yields table [.rule rule] tokens values ↔
    ∃ value, values = [value] ∧ Yields table [.rule rule] tokens [value] := by
  rw [rule_iff]
  constructor
  · rintro ⟨front, back, first, more, rfl, rfl, hfirst, hrest⟩
    obtain ⟨rfl, rfl⟩ := nil_iff.mp hrest
    rw [List.append_nil]
    exact ⟨first, rfl, hfirst⟩
  · rintro ⟨value, rfl, hvalue⟩
    exact ⟨tokens, [], value, [], (List.append_nil _).symm, rfl, hvalue, .nil⟩

theorem derives (h : Yields table symbols tokens values) :
    Derives table symbols (tokens.map Token.kind) := by
  induction h with
  | nil => exact .nil
  | terminal _ ih => exact .terminal ih
  | rule hmem _ _ _ ihinner ihrest =>
      rw [List.map_append]
      exact .rule hmem ihinner ihrest

variable {grammar : Grammar}

/-- A production whose right-hand side has derivations makes one of them. -/
theorem exists_node {production : Production} {arguments : List Value} {start stop : Nat}
    (hmem : production ∈ grammar.table) (hgives : production.meaning.Gives arguments value)
    {children : List Derivation}
    (hcovers : CoverAll grammar (tokens.map Token.kind) children production.rhs start stop)
    (hruns : Runs (evaluateList grammar tokens.toArray children) fun session =>
      (arguments, session)) :
    ∃ tree, Covers grammar (tokens.map Token.kind) tree (.rule production.lhs) start stop ∧
      Runs (evaluate grammar tokens.toArray tree) fun session => (value, session) := by
  obtain ⟨id, -, hproduction⟩ := Grammar.exists_alternative hmem
  refine ⟨.node id start stop children, ⟨rfl, rfl, production, hproduction, rfl, hcovers⟩, ?_⟩
  rw [evaluate]
  exact hruns.bind (fun _ session => (value, session)) fun _ =>
    Runs.reduce hproduction start stop fun session => ⟨[], hgives session⟩

/-- Where the tokens stand they have derivations, which evaluate to the values in
any session. -/
theorem exists_trees {inner : List Token} (h : Yields grammar.table symbols inner values)
    {start : Nat} {rest : List Token} (hdrop : tokens.drop start = inner ++ rest) :
    ∃ trees,
      CoverAll grammar (tokens.map Token.kind) trees symbols start (start + inner.length) ∧
      Runs (evaluateList grammar tokens.toArray trees) fun session => (values, session) := by
  induction h generalizing start rest with
  | nil => exact ⟨[], rfl, Runs.nil _ _⟩
  | @terminal token symbols after values _ ih =>
      have htoken : tokens[start]? = some token := by
        rw [← List.head?_drop, hdrop]
        rfl
      have hafter : tokens.drop (start + 1) = after ++ rest := by
        rw [← List.drop_drop, hdrop]
        rfl
      obtain ⟨trees, hcovers, hruns⟩ := ih hafter
      have hlabel : (tokens.map Token.kind)[start]? = some token.kind := by
        rw [List.getElem?_map, htoken, Option.map_some]
      have hleaf : Runs (evaluate grammar tokens.toArray (.leaf start)) fun session =>
          (.token token, session) := by
        rw [evaluate, List.getElem?_toArray, htoken]
        exact Runs.pure _
      have hlength : start + (token :: after).length = start + 1 + after.length := by
        rw [List.length_cons]
        omega
      rw [hlength]
      exact ⟨.leaf start :: trees, ⟨start + 1, ⟨rfl, rfl, hlabel⟩, hcovers⟩, hleaf.cons hruns⟩
  | @rule production symbols inner after arguments values value hmem _ hgives _ ihinner ihrest =>
      have hinner : tokens.drop start = inner ++ (after ++ rest) := by
        rw [hdrop, List.append_assoc]
      have hafter : tokens.drop (start + inner.length) = after ++ rest := by
        rw [← List.drop_drop, hinner, List.drop_left]
      obtain ⟨children, hchildren, harguments⟩ := ihinner hinner
      obtain ⟨tree, htree, hvalue⟩ := exists_node hmem hgives hchildren harguments
      obtain ⟨trees, hcovers, hruns⟩ := ihrest hafter
      rw [List.length_append, ← Nat.add_assoc]
      exact ⟨tree :: trees, ⟨_, htree, hcovers⟩, hvalue.cons hruns⟩

theorem exists_tree (h : Yields grammar.table [.rule rule] tokens [value]) :
    ∃ tree, Covers grammar (tokens.map Token.kind) tree (.rule rule) 0 tokens.length ∧
      Runs (evaluate grammar tokens.toArray tree) fun session => (value, session) := by
  obtain ⟨production, hmem, rfl, arguments, hinner, hgives⟩ := single_iff.mp h
  have hwhole : tokens.drop 0 = tokens ++ [] := (List.append_nil _).symm
  obtain ⟨children, hchildren, harguments⟩ := hinner.exists_trees hwhole
  rw [Nat.zero_add] at hchildren
  exact exists_node hmem hgives hchildren harguments

end Yields

namespace Commands

variable {symbols : List Symbol} {tokens : List Token} {values : List Value} {value : Value}
  {rule : Rule}

theorem matches_of_yields (h : Yields grammar.table symbols tokens values) :
    List.Forall₂ Matches symbols values := by
  induction h with
  | nil => exact .nil
  | @terminal token _ _ _ _ ih => exact .cons ⟨token, rfl, rfl⟩ ih
  | @rule production _ _ _ arguments _ value hmem _ hgives _ ihinner ihrest =>
      rw [table_eq] at hmem
      obtain ⟨outcome, happly, hshaped⟩ := agrees_of_mem hmem .awake arguments ihinner
      rw [hgives .awake] at happly
      cases happly
      exact .cons hshaped ihrest

theorem shaped_of_yields (h : Yields grammar.table [.rule rule] tokens [value]) :
    Shaped rule value := by
  cases matches_of_yields h with
  | cons hshaped _ => exact hshaped

/-- What plain symbols derive, they yield values for. -/
theorem exists_yields {labels : List String} (h : Derives grammar.table symbols labels)
    (hplain : symbols.all Symbol.isPlain = true) (hkinds : tokens.map Token.kind = labels) :
    ∃ values, Yields grammar.table symbols tokens values := by
  induction h generalizing tokens with
  | nil =>
      rw [List.map_eq_nil_iff] at hkinds
      exact ⟨[], hkinds ▸ .nil⟩
  | terminal _ ih =>
      obtain ⟨token, rest, rfl, rfl, hrest⟩ := List.map_eq_cons_iff.mp hkinds
      obtain ⟨values, hvalues⟩ := ih hplain hrest
      exact ⟨_, .terminal hvalues⟩
  | @rule production symbols inner labels hmem _ _ ihinner ihrest =>
      rw [List.all_cons, Bool.and_eq_true] at hplain
      have hlhs : production.lhs.turnsSession = false := by
        simpa [Symbol.isPlain] using hplain.1
      have hproduction := hmem
      rw [table_eq] at hproduction
      obtain ⟨front, back, rfl, hfront, hback⟩ := List.map_eq_append_iff.mp hkinds
      obtain ⟨arguments, harguments⟩ := ihinner (plain_rhs production hproduction hlhs) hfront
      obtain ⟨value, -, hgives⟩ :=
        means_of_mem hproduction hlhs (matches_of_yields harguments)
      obtain ⟨values, hvalues⟩ := ihrest hplain.2 hback
      exact ⟨_, .rule hmem harguments hgives hvalues⟩

/-- What a nonterminal generates, unless it is nothing or too long, has a derivation
that is chosen. -/
theorem exists_chosen (hnonempty : tokens ≠ []) (hlength : tokens.length ≤ Limits.tokens)
    (h : grammar.Generates rule (tokens.map Token.kind)) :
    ∃ chart tree ties, chosen grammar rule tokens = .ok (chart, tree, ties) ∧
      Covers grammar (tokens.map Token.kind) tree (.rule rule) 0 tokens.length := by
  rcases chosen_cases rule hnonempty hlength with hchosen | ⟨failure, hbuild, -⟩
  · exact hchosen
  · rcases build_cases rule hlength with ⟨chart, hchart, -⟩ | ⟨last, -, -, hnot⟩
    · rw [hbuild] at hchart
      cases hchart
    · exact absurd h hnot

/-- The derivation that is chosen for an utterance within the limits is the one
it has. -/
theorem chosen_of_covers {tree : Derivation} (hnonempty : tokens ≠ [])
    (hlength : tokens.length ≤ Limits.tokens)
    (h : Covers grammar (tokens.map Token.kind) tree (.rule rule) 0 tokens.length) :
    ∃ chart ties, chosen grammar rule tokens = .ok (chart, tree, ties) := by
  have hgenerates : grammar.Generates rule (tokens.map Token.kind) :=
    generates_of_covers (by rwa [List.length_map])
  obtain ⟨chart, other, ties, hchosen, hcovers⟩ := exists_chosen hnonempty hlength hgenerates
  have hstop : tokens.length ≤ (tokens.map Token.kind).length := by rw [List.length_map]
  obtain rfl := covers_unique fits hstop h hcovers
  exact ⟨chart, ties, hchosen⟩

end Commands

open Commands

namespace Parser

variable {parser : Parser} {rule : Rule} {tokens : List Token} {value : Value}

theorem generates_of_interpretTokens {session : Session} {parsed : Parsed}
    (h : (interpretTokens rule tokens session).1 = .ok parsed) :
    tokens ≠ [] ∧ tokens.length ≤ Limits.tokens ∧
      grammar.Generates rule (tokens.map Token.kind) := by
  cases hchosen : chosen grammar rule tokens with
  | error error =>
      rw [interpretTokens_of_error hchosen] at h
      cases h
  | ok choice =>
      obtain ⟨hnonempty, hlength⟩ := within_of_chosen hchosen
      exact ⟨hnonempty, hlength, generates_of_chosen hchosen⟩

/-- A fragment is parsed to the value that its derivation has in any session. -/
theorem parseFragment_of_runs {chart : Chart} {tree : Derivation} {ties : Nat}
    (hchosen : chosen grammar rule tokens = .ok (chart, tree, ties)) {turn : Session → Session}
    (hruns : Runs (evaluate grammar tokens.toArray tree) fun session => (value, turn session))
    (parser : Parser) (journal : Log.Journal) :
    ((parser.parseFragment rule tokens).run journal).1.1 = .ok value := by
  obtain ⟨parsed, hparsed, hvalue, -⟩ := interpretTokens_of_runs hchosen hruns parser.session
  rw [parseFragment_fst, hparsed]
  exact congrArg Except.ok hvalue

/-- A fragment within the limits is parsed to the value it yields. -/
theorem parseFragment_of_yields (parser : Parser) (journal : Log.Journal) (hnonempty : tokens ≠ [])
    (hlength : tokens.length ≤ Limits.tokens)
    (h : Yields grammar.table [.rule rule] tokens [value]) :
    ((parser.parseFragment rule tokens).run journal).1.1 = .ok value := by
  obtain ⟨tree, hcovers, hruns⟩ := h.exists_tree
  obtain ⟨chart, ties, hchosen⟩ := chosen_of_covers hnonempty hlength hcovers
  exact parseFragment_of_runs hchosen hruns parser journal

/-- Parsing a fragment that has nothing to do with the session gives the value
that its tokens yield. -/
theorem parseFragment_eq_ok_iff (hplain : rule.turnsSession = false) (journal : Log.Journal) :
    ((parser.parseFragment rule tokens).run journal).1.1 = .ok value ↔
      tokens ≠ [] ∧ tokens.length ≤ Limits.tokens ∧
        Yields grammar.table [.rule rule] tokens [value] := by
  constructor
  · intro h
    obtain ⟨parsed, hparsed⟩ :
        ∃ parsed, (interpretTokens rule tokens parser.session).1 = .ok parsed := by
      rw [parseFragment_fst] at h
      cases hresult : (interpretTokens rule tokens parser.session).1 with
      | error error =>
          rw [hresult] at h
          cases h
      | ok parsed => exact ⟨parsed, rfl⟩
    obtain ⟨hnonempty, hlength, hgenerates⟩ := generates_of_interpretTokens hparsed
    have hsymbol : [Symbol.rule rule].all Symbol.isPlain = true := by
      simp [Symbol.isPlain, hplain]
    obtain ⟨values, hvalues⟩ := exists_yields hgenerates hsymbol rfl
    obtain ⟨other, rfl, hother⟩ := Yields.last_iff.mp hvalues
    have hsame := parseFragment_of_yields parser journal hnonempty hlength hother
    rw [h] at hsame
    cases hsame
    exact ⟨hnonempty, hlength, hother⟩
  · rintro ⟨hnonempty, hlength, hyields⟩
    exact parseFragment_of_yields parser journal hnonempty hlength hyields

end Parser

end SpokenKeys
