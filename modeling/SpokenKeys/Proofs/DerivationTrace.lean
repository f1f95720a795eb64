import SpokenKeys.Proofs.Erasure
import SpokenKeys.Proofs.UtteranceTags

/-!
A trace is the derivation that an utterance is evaluated by: what a sink receives tells
the reductions of the tree, the children of a node before the node. Nothing that a parser
does is affected by who looks on.
-/

namespace SpokenKeys

open SpokenKeys.Derivation Evaluation Commands

/-- The meaning of a production, applied over the tokens from start to stop. -/
structure Reduction where
  production : Nat
  start : Nat
  stop : Nat

/-- The event tells the reduction: it has the production's text in full, stands at the
first token and says where the last one ends. -/
def Reduction.ToldBy (reduction : Reduction) (event : Log.Event) : Prop :=
  ∃ production, grammar.production? reduction.production = some production ∧
    event =
      { level := .debug
        code := .reduction
        message := production.display
        wordNo := some reduction.start
        details := [("span", s!"{reduction.start}..{reduction.stop}")] }

namespace Derivation

mutual

/-- The reductions of a derivation, those of the children from left to right before that
of their parent. -/
def postorder : Derivation → List Reduction
  | .leaf _ => []
  | .node production start stop children =>
      postorderList children ++ [⟨production, start, stop⟩]

def postorderList : List Derivation → List Reduction
  | [] => []
  | child :: rest => postorder child ++ postorderList rest

end

mutual

theorem length_postorder : ∀ tree : Derivation, tree.postorder.length = tree.nodeCount
  | .leaf _ => rfl
  | .node _ _ _ children => by
      rw [postorder, List.length_append, length_postorderList children, nodeCount, Nat.add_comm]
      rfl

theorem length_postorderList :
    ∀ trees : List Derivation, (postorderList trees).length = nodeCountList trees
  | [] => rfl
  | child :: rest => by
      rw [postorderList, List.length_append, length_postorder child, length_postorderList rest,
        nodeCountList]

end

end Derivation

/-- No production's text is cut. -/
theorem Commands.display_fits :
    ∀ production ∈ productions, production.display.utf8ByteSize ≤ Limits.messageBytes := by
  decide +kernel

theorem Reduction.toldBy_reductionEvent {id : Nat} {production : Production}
    (h : grammar.production? id = some production) (start stop : Nat) :
    (⟨id, start, stop⟩ : Reduction).ToldBy (reductionEvent production start stop) := by
  refine ⟨production, h, ?_⟩
  have hwhole : Log.cutMessage production.display = production.display :=
    if_pos (display_fits production (mem_of_production? h))
  rw [reductionEvent, Log.Event.debug, Log.Event.make, hwhole]
  rfl

/-- The event of a note that is a step. -/
def Note.step? : Note → Option Log.Event
  | .step told => some told
  | .event _ => none

/-- What a trace receives of the notes of an evaluation. -/
def Evaluation.steps (state : Evaluation) : List Log.Event :=
  state.notes.toList.filterMap Note.step?

namespace Evaluation

variable {before middle after : Evaluation} {reductions more : List Reduction}

/-- From one state to the other the reductions have been counted and told, and no more. -/
structure Recounts (before after : Evaluation) (reductions : List Reduction) : Prop where
  count : after.reductions = before.reductions + reductions.length
  told : ∃ events, after.steps = before.steps ++ events ∧
    List.Forall₂ Reduction.ToldBy reductions events

theorem Recounts.refl (state : Evaluation) : Recounts state state [] :=
  ⟨rfl, [], (List.append_nil _).symm, .nil⟩

theorem Recounts.trans (hfirst : Recounts before middle reductions)
    (hrest : Recounts middle after more) : Recounts before after (reductions ++ more) := by
  obtain ⟨told, hsteps, htold⟩ := hfirst.told
  obtain ⟨later, hsteps', hlater⟩ := hrest.told
  refine ⟨?_, told ++ later, ?_, List.rel_append htold hlater⟩
  · rw [hrest.count, hfirst.count, List.length_append, Nat.add_assoc]
  · rw [hsteps', hsteps, List.append_assoc]

/-- What a meaning tells is not for the trace. -/
theorem steps_reduced (state : Evaluation) (outcome : Meaning.Outcome) :
    (state.reduced outcome).steps = state.steps := by
  have hnone : (outcome.events.map Note.event).filterMap Note.step? = [] := by
    rw [List.filterMap_map]
    exact List.filterMap_eq_nil_iff.mpr fun _ _ => by rfl
  rw [steps, reduced, Array.toList_append, List.filterMap_append, hnone, List.append_nil, steps]

theorem recounts_of_reduce {id start stop : Nat} {values : List Value} {value : Value}
    (h : (reduce grammar id start stop values).run.run before = (.ok value, after)) :
    Recounts before after [⟨id, start, stop⟩] := by
  cases hproduction : grammar.production? id with
  | none =>
      rw [reduce, hproduction] at h
      cases h
  | some production =>
      rw [reduce_run hproduction] at h
      split at h
      · cases h
      next outcome houtcome =>
        cases h
        refine ⟨rfl, [_], ?_, .cons (Reduction.toldBy_reductionEvent hproduction start stop) .nil⟩
        rw [steps_reduced, steps, reducing, Array.toList_push, List.filterMap_append]
        rfl

mutual

/-- The evaluation of a derivation counts and tells its reductions. -/
theorem recounts_of_evaluate {tokens : Array Token} : ∀ {tree : Derivation}
    {before after : Evaluation} {value : Value},
    (evaluate grammar tokens tree).run.run before = (.ok value, after) →
    Recounts before after tree.postorder
  | .leaf index, before, after, value, h => by
      rw [evaluate] at h
      cases htoken : tokens[index]? with
      | none =>
          rw [htoken] at h
          cases h
      | some token =>
          rw [htoken] at h
          cases h
          exact .refl _
  | .node id start stop children, before, after, value, h => by
      rw [evaluate] at h
      obtain ⟨values, middle, hchildren, hreduce⟩ := Evaluating.exists_of_run_bind h
      exact (recounts_of_evaluateList hchildren).trans (recounts_of_reduce hreduce)

theorem recounts_of_evaluateList {tokens : Array Token} : ∀ {trees : List Derivation}
    {before after : Evaluation} {values : List Value},
    (evaluateList grammar tokens trees).run.run before = (.ok values, after) →
    Recounts before after (postorderList trees)
  | [], before, after, values, h => by
      rw [evaluateList] at h
      cases h
      exact .refl _
  | child :: rest, before, after, values, h => by
      rw [evaluateList] at h
      obtain ⟨value, middle, hchild, h⟩ := Evaluating.exists_of_run_bind h
      obtain ⟨others, last, hrest, h⟩ := Evaluating.exists_of_run_bind h
      cases h
      exact (recounts_of_evaluate hchild).trans (recounts_of_evaluateList hrest)

end

end Evaluation

namespace Parser

variable {parser other : Parser} {tokens : List Token}

/-- The parsers differ at most in their preferences and in who looks on. -/
structure SameState (parser other : Parser) : Prop where
  entry : other.entry = parser.entry
  session : other.session = parser.session
  stats : other.stats = parser.stats

theorem SameState.heard (h : parser.SameState other) (tokens : List Token) :
    (other.heard tokens).1 = (parser.heard tokens).1 ∧
      (parser.heard tokens).2.SameState (other.heard tokens).2 := by
  rw [Parser.heard, Parser.heard, h.entry, h.session, h.stats]
  generalize interpretTokens parser.entry.rule tokens parser.session = interpreted
  obtain ⟨result, evaluation⟩ := interpreted
  dsimp only
  cases result.bind outcomeOf with
  | error error => exact ⟨rfl, h.entry, h.session, rfl⟩
  | ok outcome => exact ⟨rfl, h.entry, rfl, rfl⟩

theorem SameState.hearAll (utterances : List (List Token)) {parser other : Parser}
    (h : parser.SameState other) :
    other.hearAll utterances = parser.hearAll utterances ∧
      (parser.heardAll utterances).SameState (other.heardAll utterances) := by
  induction utterances generalizing parser other with
  | nil => exact ⟨rfl, h⟩
  | cons tokens rest ih =>
      obtain ⟨hresult, hnext⟩ := h.heard tokens
      obtain ⟨hresults, hlast⟩ := ih hnext
      exact ⟨by rw [Parser.hearAll, Parser.hearAll, hresult, hresults], hlast⟩

end Parser

end SpokenKeys
