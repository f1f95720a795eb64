import SpokenKeys.Proofs.Chaining
import SpokenKeys.Proofs.Hearing

/-!
What words mean has nothing to do with what is said around them. The node of a
derivation has one value in whatever state it is evaluated, unless it is the root,
and its tokens are given that value when they are parsed alone as the nonterminal
of the node.
-/

namespace SpokenKeys

open SpokenKeys.Derivation Evaluation Commands

namespace Derivation

/-- The first derivation is a part of the second one. -/
inductive Below : Derivation → Derivation → Prop where
  | child {id start stop : Nat} {tree : Derivation} {children : List Derivation} :
      tree ∈ children → Below tree (.node id start stop children)
  | deeper {id start stop : Nat} {tree inner : Derivation} {children : List Derivation} :
      Below tree inner → inner ∈ children → Below tree (.node id start stop children)

variable {grammar : Grammar} {labels : List String} {tree inner : Derivation} {symbol : Symbol}
  {start stop : Nat}

/-- A part of a derivation is a derivation of a symbol on some right-hand side. -/
theorem Below.exists_covers (h : Below inner tree)
    (hcovers : Covers grammar labels tree symbol start stop) :
    ∃ production ∈ grammar.table, ∃ symbol ∈ production.rhs, ∃ left right, right ≤ stop ∧
      Covers grammar labels inner symbol left right := by
  induction h generalizing symbol start stop with
  | child hmem =>
      cases symbol with
      | terminal => exact hcovers.elim
      | rule =>
          obtain ⟨-, -, production, hproduction, -, hchildren⟩ := hcovers
          obtain ⟨before, symbol, after, left, right, hrhs, -, hright, -, hinner, -⟩ :=
            split_of_mem hchildren hmem
          exact ⟨production, Grammar.mem_table_of_production? hproduction, symbol,
            hrhs ▸ List.mem_append_cons_self, left, right, hright, hinner⟩
  | deeper _ hmem ih =>
      cases symbol with
      | terminal => exact hcovers.elim
      | rule =>
          obtain ⟨-, -, production, -, -, hchildren⟩ := hcovers
          obtain ⟨_, symbol, _, left, right, -, -, hright, -, hinner, -⟩ :=
            split_of_mem hchildren hmem
          obtain ⟨production, hproduction, symbol, hsymbol, left, right', hright', hbelow⟩ :=
            ih hinner
          exact ⟨production, hproduction, symbol, hsymbol, left, right',
            hright'.trans hright, hbelow⟩

end Derivation

/-- The computation has the value in whatever state it is run. -/
def Always {α : Type} (computation : Evaluating α) (value : α) : Prop :=
  ∀ state, ∃ after, computation.run.run state = (.ok value, after)

namespace Always

variable {α : Type} {computation : Evaluating α} {value other : α}

theorem of_runs {turn : Session → Session}
    (h : Runs computation fun session => (value, turn session)) : Always computation value := by
  intro state
  obtain ⟨after, hrun, -⟩ := h state
  exact ⟨after, hrun⟩

theorem unique (h : Always computation value) (hother : Always computation other) :
    value = other := by
  obtain ⟨after, hrun⟩ := h { session := .awake }
  obtain ⟨after', hrun'⟩ := hother { session := .awake }
  rw [hrun] at hrun'
  cases hrun'
  rfl

end Always

variable {tokens : List Token} {tree : Derivation} {rule : Rule} {value : Value}
  {start stop : Nat}

theorem map_kind_extract (tokens : List Token) (start stop : Nat) :
    (tokens.extract start stop).map Token.kind = span (tokens.map Token.kind) start stop := by
  rw [List.map_take, List.map_drop, span, List.drop_take]

theorem extract_append_drop (tokens : List Token) (h : start ≤ stop) :
    tokens.extract start stop ++ tokens.drop stop = tokens.drop start := by
  obtain ⟨length, rfl⟩ := Nat.exists_eq_add_of_le h
  rw [List.extract_eq_take_drop, Nat.add_sub_cancel_left, List.drop_take_append_drop]

theorem length_extract (hstart : start ≤ stop) (hstop : stop ≤ tokens.length) :
    start + (tokens.extract start stop).length = stop := by
  rw [List.length_take, List.length_drop]
  omega

namespace Commands

/-- Inputs are on no right-hand side, so what is on one has nothing to do with the
session, unless it is a phrase that turns it. -/
theorem plain_or_sleepPhrase : ∀ production ∈ grammar.table, ∀ symbol ∈ production.rhs,
    symbol.isPlain = true ∨ symbol = n .sleepPhrase := by
  have hsides := @forall_table (fun production =>
    production.rhs.all fun symbol => symbol.isPlain || symbol == n .sleepPhrase) (by decide)
  intro production hmem symbol hsymbol
  have hside := List.all_eq_true.mp (hsides production hmem) symbol hsymbol
  rwa [Bool.or_eq_true, beq_iff_eq] at hside

/-- The tokens of a derivation yield the value that it has where it stands. -/
theorem yields_of_covers (hplain : rule.turnsSession = false) (hstop : stop ≤ tokens.length)
    (h : Covers grammar (tokens.map Token.kind) tree (.rule rule) start stop) :
    ∃ value, Yields grammar.table [.rule rule] (tokens.extract start stop) [value] ∧
      Always (evaluate grammar tokens.toArray tree) value := by
  have hsymbol : (Symbol.rule rule).isPlain = true := by simp [Symbol.isPlain, hplain]
  have hderives := derives_of_covers h
  obtain ⟨values, hvalues⟩ :=
    exists_yields hderives (by simp [hsymbol]) (map_kind_extract tokens start stop)
  obtain ⟨value, rfl, hyields⟩ := Yields.last_iff.mp hvalues
  refine ⟨value, hyields, ?_⟩
  -- Where the tokens stand, what they yield is evaluated from a derivation of the
  -- same symbol over the same span, and there is only one.
  have hle := le_of_covers h
  obtain ⟨trees, hcovers, hruns⟩ := hyields.exists_trees (extract_append_drop tokens hle).symm
  rw [length_extract hle hstop] at hcovers
  match trees, hcovers with
  | [other], ⟨middle, hfirst, hnil⟩ =>
    obtain rfl : middle = stop := hnil
    have hlabels : middle ≤ (tokens.map Token.kind).length := by rwa [List.length_map]
    obtain rfl := covers_unique fits hlabels hfirst h
    obtain ⟨own, -, hown⟩ := runs_of_covers hsymbol h
    have hsame : [value] = [own] :=
      (Always.of_runs hruns).unique (.of_runs (hown.cons (Runs.nil _ _)))
    cases hsame
    exact .of_runs hown

end Commands

/-- A derivation of a symbol from a right-hand side that spans some tokens has one
value in any state, and the tokens have it as a fragment. -/
theorem Commands.exists_fragment
    (hsymbol : (Symbol.rule rule).isPlain = true ∨ Symbol.rule rule = n .sleepPhrase)
    (hspan : start < stop) (hstop : stop ≤ tokens.length)
    (hlength : tokens.length ≤ Limits.tokens)
    (h : Covers grammar (tokens.map Token.kind) tree (.rule rule) start stop) :
    ∃ value, Always (evaluate grammar tokens.toArray tree) value ∧
      ∀ (parser : Parser) (journal : Log.Journal),
        parser.fragment journal rule (tokens.extract start stop) = .ok value := by
  have hcount := length_extract (Nat.le_of_lt hspan) hstop
  have hnonempty : tokens.extract start stop ≠ [] := by
    intro hempty
    rw [hempty, List.length_nil] at hcount
    omega
  have hfew : (tokens.extract start stop).length ≤ Limits.tokens := by omega
  rcases hsymbol with hplain | hphrase
  · have hturns : rule.turnsSession = false := by simpa [Symbol.isPlain] using hplain
    obtain ⟨value, hyields, hvalue⟩ := yields_of_covers hturns hstop h
    exact ⟨value, hvalue, fun parser journal =>
      Parser.parseFragment_of_yields parser journal hnonempty hfew hyields⟩
  · -- A phrase that turns the session comes to nothing, alone as well as here.
    cases hphrase
    obtain ⟨target, -, hruns⟩ := turn_of_covers h
    refine ⟨_, .of_runs hruns, fun parser journal => ?_⟩
    have hderives := derives_of_covers h
    rw [← map_kind_extract] at hderives
    obtain ⟨chart, alone, ties, hchosen, hcovers⟩ := exists_chosen hnonempty hfew hderives
    obtain ⟨target', -, hruns'⟩ := turn_of_covers hcovers
    exact Parser.parseFragment_of_runs hchosen hruns' parser journal

/-- Meaning does not depend on context. Whatever utterance is accepted, its
derivation is evaluated to its action, and every part of the derivation that spans
some tokens has one value in any state: the value that these tokens are given by
any other parser as a fragment, parsed as the nonterminal of the part. -/
theorem meaning_free_of_context (parser other : Parser) (tokens : List Token)
    (journal later : Log.Journal) (outcome : ParseOutcome)
    (h : ((parser.parse tokens).run journal).1.1 = .ok outcome) :
    ∃ chart tree ties, Chart.build grammar parser.entry.rule tokens = .ok chart ∧
      chart.derive = .ok (tree, ties) ∧
      (∀ state : Evaluation, state.session = parser.session → ∃ after,
        (evaluate grammar tokens.toArray tree).run.run state =
          (.ok (.node outcome.action), after)) ∧
      ∀ (id start stop : Nat) (children : List Derivation),
        Below (.node id start stop children) tree → start < stop →
        ∃ production value, grammar.production? id = some production ∧
          Always (evaluate grammar tokens.toArray (.node id start stop children)) value ∧
          other.fragment later production.lhs (tokens.extract start stop) = .ok value := by
  rw [Parser.parse_fst] at h
  cases hchosen : chosen grammar parser.entry.rule tokens with
  | error error =>
      rw [(Parser.heard_of_error hchosen).1] at h
      cases h
  | ok choice =>
      obtain ⟨chart, tree, ties⟩ := choice
      obtain ⟨hbuild, hderive⟩ := chosen_eq_ok hchosen
      obtain ⟨-, hlength⟩ := within_of_chosen hchosen
      refine ⟨chart, tree, ties, hbuild, hderive, fun state hsession => ?_,
        fun id start stop children hbelow hspan => ?_⟩
      · obtain ⟨verdict, -, hdecides⟩ := exists_verdict hchosen
        obtain ⟨heard, hheard, haction, -⟩ := Parser.heard_of_decides hchosen hdecides
        obtain ⟨after, hrun, -⟩ := hdecides state
        rw [h] at hheard
        cases hheard
        rw [haction, ← hsession]
        exact ⟨after, hrun⟩
      · obtain ⟨outer, hmem, symbol, hsymbol, left, right, hright, hcovers⟩ :=
          hbelow.exists_covers (covers_of_chosen hchosen)
        cases symbol with
        | terminal => exact hcovers.elim
        | rule rule =>
            have hnode := hcovers
            obtain ⟨rfl, rfl, production, hproduction, rfl, -⟩ := hnode
            obtain ⟨value, hvalue, hfragment⟩ := exists_fragment
              (plain_or_sleepPhrase outer hmem _ hsymbol) hspan hright hlength hcovers
            exact ⟨production, value, hproduction, hvalue, hfragment other later⟩

-- The unspoken count stands some way down in the table.
set_option maxRecDepth 2000 in
/-- A step up, said to a session that sleeps, comes to nothing; its movement means
a step up all the same, as it does in any session when it stands alone. -/
theorem sleeping_step_means_step :
    let parser : Parser := { entry := .strict, session := .asleep }
    let tokens := [Token.ofWord "up" 0, Token.closing 1]
    let movement := Derivation.node 26 0 1 [.leaf 0, .node 30 1 1 []]
    ∃ outcome, ((parser.parse tokens).run {}).1.1 = .ok outcome ∧ outcome.action = .idle ∧
      ∃ production value, grammar.production? 26 = some production ∧
        Always (evaluate grammar tokens.toArray movement) value ∧
        ({ entry := .tolerant } : Parser).fragment {} production.lhs [.ofWord "up" 0] =
          .ok value ∧
        production.lhs = .movement ∧ value = .node (.move .up) := by
  intro parser tokens movement
  have hphrase : Says .movement [.ofWord "up" 0] (.node (.move .up)) :=
    says_movement.mpr ⟨_, [], .up, rfl, rfl, .inl ⟨rfl, rfl⟩⟩
  have hfront : Derives grammar.table parser.entry.filler (([] : List Token).map Token.kind) :=
    parser.entry.derives_no_filler
  have hclosing : (Token.closing 1).kind = Token.endLabel := rfl
  have htokens : [] ++ ([.ofWord "up" 0] ++ [.closing 1]) = tokens := rfl
  obtain ⟨outcome, houtcome, haction, -⟩ :=
    Parser.heard_chain hfront (.chain_single (by decide) hphrase) hclosing htokens (by decide)
  rw [← Parser.parse_fst _ _ {}] at houtcome
  obtain ⟨chart, tree, ties, hbuild, hderive, -, hparts⟩ :=
    meaning_free_of_context parser { entry := .tolerant } tokens {} {} outcome houtcome
  refine ⟨outcome, houtcome, haction, ?_⟩
  have hcovers : Covers grammar (tokens.map Token.kind)
      (.node 2 0 2 [.node 13 0 1 [.node 18 0 1 [movement]], .leaf 1]) (.rule .input) 0 2 :=
    ⟨rfl, rfl, _, rfl, rfl, 1, ⟨rfl, rfl, _, rfl, rfl, 1, ⟨rfl, rfl, _, rfl, rfl, 1,
      ⟨rfl, rfl, _, rfl, rfl, 1, ⟨rfl, rfl, rfl⟩, 1, ⟨rfl, rfl, _, rfl, rfl, rfl⟩, rfl⟩, rfl⟩,
      rfl⟩, 2, ⟨rfl, rfl, rfl⟩, rfl⟩
  obtain ⟨other, ties', hderive', hother⟩ := derive_eq_ok (by decide) hbuild
  rw [hderive] at hderive'
  cases hderive'
  obtain rfl := covers_unique fits (Nat.le_refl _) hother hcovers
  obtain ⟨production, value, hproduction, hvalue, hfragment⟩ :=
    hparts 26 0 1 [.leaf 0, .node 30 1 1 []]
      (.deeper (.deeper (.child List.mem_cons_self) List.mem_cons_self) List.mem_cons_self)
      Nat.one_pos
  refine ⟨production, value, hproduction, hvalue, hfragment, ?_⟩
  have hmovement : grammar.production? 26 = some ⟨.movement, [t "up", n .count], .movement⟩ := rfl
  obtain rfl := Option.some.inj (hproduction.symm.trans hmovement)
  have halone : ({ entry := .tolerant } : Parser).fragment {} .movement [.ofWord "up" 0] =
      .ok (.node (.move .up)) :=
    (Parser.fragment_eq_ok_iff rfl).mpr ⟨List.cons_ne_nil _ _, by decide, hphrase⟩
  exact ⟨rfl, Except.ok.inj (hfragment.symm.trans halone)⟩

end SpokenKeys
