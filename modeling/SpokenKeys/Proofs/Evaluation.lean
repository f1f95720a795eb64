import SpokenKeys.Grammar.Derivation
import SpokenKeys.Proofs.Interpretation
import SpokenKeys.Proofs.Shapes

/-!
Evaluation of derivations of the command grammar. It never fails, and all that
it takes from the state before and gives to the state after, apart from notes
and counts, is the session; so a derivation is a function of the session.
-/

namespace SpokenKeys

open SpokenKeys.Derivation Evaluation

/-- The computation succeeds in every state, with a result and a session that
are functions of the session before. -/
def Runs {α : Type} (computation : Evaluating α) (result : Session → α × Session) : Prop :=
  ∀ state, ∃ after, computation.run.run state = (.ok (result state.session).1, after) ∧
    after.session = (result state.session).2

namespace Runs

variable {α β : Type}

theorem pure (value : α) : Runs (pure value : Evaluating α) fun session => (value, session) :=
  fun state => ⟨state, rfl, rfl⟩

theorem bind {first : Evaluating α} {next : α → Evaluating β} {result : Session → α × Session}
    (more : Session → Session → β × Session) (hfirst : Runs first result)
    (hnext : ∀ session, Runs (next (result session).1) (more session)) :
    Runs (first >>= next) fun session => more session (result session).2 := by
  intro state
  obtain ⟨middle, hmiddle, hsession⟩ := hfirst state
  obtain ⟨after, hafter, hlast⟩ := hnext state.session middle
  refine ⟨after, ?_, ?_⟩
  · rw [Evaluating.run_bind_ok hmiddle, hafter, hsession]
  · rw [hlast, hsession]

theorem reduce {grammar : Grammar} {id : Nat} {production : Production}
    (hproduction : grammar.production? id = some production) (start stop : Nat)
    {values : List Value} {result : Session → Value × Session}
    (h : ∀ session, ∃ events, production.meaning.apply session values =
      .ok ⟨(result session).1, (result session).2, events⟩) :
    Runs (Evaluation.reduce grammar id start stop values) result := by
  intro state
  obtain ⟨events, hevents⟩ := h state.session
  rw [reduce_run hproduction, hevents]
  exact ⟨_, rfl, rfl⟩

theorem nil (grammar : Grammar) (tokens : Array Token) :
    Runs (evaluateList grammar tokens []) fun session => ([], session) := by
  rw [evaluateList]
  exact pure _

theorem cons {grammar : Grammar} {tokens : Array Token} {child : Derivation}
    {children : List Derivation} {value : Value} {values : List Value}
    {turn more : Session → Session}
    (hfirst : Runs (evaluate grammar tokens child) fun session => (value, turn session))
    (hrest : Runs (evaluateList grammar tokens children) fun session => (values, more session)) :
    Runs (evaluateList grammar tokens (child :: children)) fun session =>
      (value :: values, more (turn session)) := by
  rw [evaluateList]
  refine hfirst.bind (fun _ session => (value :: values, more session)) fun _ => ?_
  exact hrest.bind (fun _ session => (value :: values, session)) fun _ => pure _

end Runs

/-- The symbol has nothing to do with the session. -/
def Symbol.isPlain : Symbol → Bool
  | .terminal _ => true
  | .rule nonterminal => !nonterminal.turnsSession

theorem Commands.plain_rhs : ∀ production ∈ productions,
    production.lhs.turnsSession = false → production.rhs.all Symbol.isPlain = true := by
  have h : (productions.all fun production =>
      production.lhs.turnsSession || production.rhs.all Symbol.isPlain) = true := by
    decide
  intro production hmem hplain
  have := List.all_eq_true.mp h production hmem
  rwa [hplain, Bool.false_or] at this

theorem Commands.mem_of_production? {id : Nat} {production : Production}
    (h : grammar.production? id = some production) : production ∈ productions := by
  have hmem := Grammar.mem_table_of_production? h
  rwa [table_eq] at hmem

variable {tokens : List Token}

mutual

/-- The value of a plain symbol's derivation does not depend on the session,
which it leaves alone, and has the symbol's shape. -/
theorem runs_of_covers : ∀ {tree : Derivation} {symbol : Symbol} {start stop : Nat},
    symbol.isPlain = true →
    Covers Commands.grammar (tokens.map Token.kind) tree symbol start stop →
    ∃ value, Matches symbol value ∧
      Runs (evaluate Commands.grammar tokens.toArray tree) fun session => (value, session)
  | .leaf index, .terminal label, _, _, _, h => by
      obtain ⟨rfl, -, hlabel⟩ := h
      rw [List.getElem?_map, Option.map_eq_some_iff] at hlabel
      obtain ⟨token, htoken, hkind⟩ := hlabel
      refine ⟨.token token, ⟨token, rfl, hkind⟩, ?_⟩
      rw [evaluate, List.getElem?_toArray, htoken]
      exact Runs.pure _
  | .node id start stop children, .rule rule, _, _, hplain, h => by
      obtain ⟨-, -, production, hproduction, rfl, hchildren⟩ := h
      have hmem := Commands.mem_of_production? hproduction
      have hlhs : production.lhs.turnsSession = false := by simpa [Symbol.isPlain] using hplain
      obtain ⟨values, hvalues, hruns⟩ := runs_of_coverAll (Commands.plain_rhs _ hmem hlhs) hchildren
      obtain ⟨value, hshaped, happly⟩ := Commands.means_of_mem hmem hlhs hvalues
      refine ⟨value, hshaped, ?_⟩
      rw [evaluate]
      have hreduce : Runs (reduce Commands.grammar id start stop values) fun session =>
          (value, session) :=
        Runs.reduce hproduction start stop fun session => ⟨[], happly session⟩
      exact hruns.bind _ fun _ => hreduce
  | .leaf _, .rule _, _, _, _, h => h.elim
  | .node _ _ _ _, .terminal _, _, _, _, h => h.elim

theorem runs_of_coverAll : ∀ {trees : List Derivation} {symbols : List Symbol} {start stop : Nat},
    symbols.all Symbol.isPlain = true →
    CoverAll Commands.grammar (tokens.map Token.kind) trees symbols start stop →
    ∃ values, List.Forall₂ Matches symbols values ∧
      Runs (evaluateList Commands.grammar tokens.toArray trees) fun session => (values, session)
  | [], [], _, _, _, _ => by
      exact ⟨[], .nil, Runs.nil _ _⟩
  | _ :: _, _ :: _, _, _, hplain, h => by
      obtain ⟨_, hfirst, hrest⟩ := h
      rw [List.all_cons, Bool.and_eq_true] at hplain
      obtain ⟨value, hvalue, hruns⟩ := runs_of_covers hplain.1 hfirst
      obtain ⟨values, hvalues, hruns'⟩ := runs_of_coverAll hplain.2 hrest
      exact ⟨value :: values, .cons hvalue hvalues, hruns.cons hruns'⟩
  | [], _ :: _, _, _, _, h => h.elim
  | _ :: _, [], _, _, _, h => h.elim

end

/-- Tokens whose derivation evaluates in any session are interpreted so. -/
theorem Parser.interpretTokens_of_runs {start : Rule} {chart : Chart} {tree : Derivation}
    {ties : Nat} (h : chosen Commands.grammar start tokens = .ok (chart, tree, ties))
    {result : Session → Value × Session}
    (hruns : Runs (evaluate Commands.grammar tokens.toArray tree) result) (session : Session) :
    ∃ parsed, (interpretTokens start tokens session).1 = .ok parsed ∧
      parsed.value = (result session).1 ∧
      (interpretTokens start tokens session).2.session = (result session).2 := by
  obtain ⟨after, hrun, hsession⟩ := hruns (chosenState start chart ties { session })
  rw [interpretTokens, interpret_run, h, afterChoice, hrun]
  exact ⟨_, rfl, rfl, hsession⟩

end SpokenKeys
