import Mathlib.Algebra.GroupWithZero.Nat
import Mathlib.Data.List.Forall2
import SpokenKeys.Grammar.Commands
import SpokenKeys.Proofs.Language

/-!
The values that the phrases of a nonterminal have, and that the meanings of the
command grammar agree with them: applied to values of the right shapes, in any
session, a meaning finds no fault and gives a value of the shape of its
nonterminal.
-/

namespace SpokenKeys

/-- A reader takes values from the front, gives a result and leaves the rest. -/
def Reads {α : Type} (reader : ArgumentReader α) (values : List Value) (result : α)
    (rest : List Value) : Prop :=
  reader.run.run values = (.ok result, rest)

namespace Reads

variable {α β : Type} {values middle rest : List Value} {production : String}

theorem pure (result : α) (values : List Value) :
    Reads (pure result : ArgumentReader α) values result values := rfl

theorem bind {first : ArgumentReader α} {next : α → ArgumentReader β} {value : α} {result : β}
    (hfirst : Reads first values value middle) (hnext : Reads (next value) middle result rest) :
    Reads (first >>= next) values result rest := by
  rw [Reads, ExceptT.run_bind, StateT.run_bind, show first.run.run values = _ from hfirst]
  exact hnext

theorem map {first : ArgumentReader α} {value : α} (change : α → β)
    (h : Reads first values value rest) : Reads (change <$> first) values (change value) rest := by
  rw [map_eq_pure_bind]
  exact h.bind (pure _ _)

theorem skip (value : Value) (rest : List Value) :
    Reads (ArgumentReader.skip production) (value :: rest) () rest := rfl

theorem token (token : Token) (rest : List Value) :
    Reads (ArgumentReader.token production) (.token token :: rest) token rest := rfl

theorem integer (value : UInt64) (rest : List Value) :
    Reads (ArgumentReader.integer production) (.integer value :: rest) value rest := rfl

theorem word (spelling : String) (rest : List Value) :
    Reads (ArgumentReader.word production) (.word spelling :: rest) spelling rest := rfl

theorem node (action : Action) (rest : List Value) :
    Reads (ArgumentReader.node production) (.node action :: rest) action rest := rfl

theorem node? (action : Action) (rest : List Value) :
    Reads (ArgumentReader.node? production) (.node action :: rest) (some action) rest := rfl

theorem no_node : Reads (ArgumentReader.node? production) [] none [] := rfl

theorem integer? (value : UInt64) (rest : List Value) :
    Reads (ArgumentReader.integer? production) (.integer value :: rest) (some value) rest := rfl

theorem no_integer : Reads (ArgumentReader.integer? production) [] none [] := rfl

theorem absent_integer (rest : List Value) :
    Reads (ArgumentReader.integer? production) (.absent :: rest) none rest := rfl

theorem lookUp {expected key : String} {find : String → Option α} {found : α}
    (hfound : find key = some found) (values : List Value) :
    Reads (Meaning.lookUp production expected find key) values found values := by
  rw [Reads, Meaning.lookUp, hfound]
  rfl

theorem liftExcept {result : Except Fault α} {value : α} (h : result = .ok value)
    (values : List Value) : Reads (Meaning.reader.liftExcept result) values value values := by
  rw [h]
  rfl

end Reads

def IsNumber (bound : Nat) (value : Value) : Prop :=
  ∃ number, value = .integer number ∧ number.toNat ≤ bound

/-- The shape of the values that a nonterminal's phrases have. -/
def Shaped : Rule → Value → Prop
  | .ones => IsNumber 9
  | .small => IsNumber 19
  | .tens => IsNumber 90
  | .hundreds => IsNumber 900
  | .group => IsNumber 999
  | .thousands => IsNumber 999999
  | .millions => IsNumber 999999999
  | .billions => IsNumber 999999999999
  | .count => fun value => value = .absent ∨ IsNumber 999 value
  | .junk => fun value => value = .absent
  | .rawWord => fun value => ∃ spelling, value = .word spelling
  | .commands => fun value => ∃ first rest, value = .node (.chain (first :: rest))
  | .letter | .skyLetter => fun value => ∃ letter, value = .node (.char letter)
  | .wordRun => fun value => ∃ words, value = .node (.words words)
  | _ => fun value => ∃ action, value = .node action

/-- The value of a symbol in a derivation: a token of the label, or a value of
the nonterminal's shape. -/
def Matches : Symbol → Value → Prop
  | .terminal label, value => ∃ token, value = .token token ∧ token.kind = label
  | .rule rule, value => Shaped rule value

/-- The nonterminals whose meanings have to do with the session. -/
def Rule.turnsSession : Rule → Bool
  | .input | .tolerantInput | .sleepPhrase => true
  | _ => false

/-- A production means something: in any session, which it leaves alone, it has
one value for the values of its symbols, and that is of the right shape. -/
def Means (production : Production) (values : List Value) : Prop :=
  ∃ value, Shaped production.lhs value ∧
    ∀ session, production.meaning.apply session values = .ok { value, session }

/-- The meaning has a value for its arguments, and leaves any session alone. -/
def Meaning.Gives (meaning : Meaning) (arguments : List Value) (value : Value) : Prop :=
  ∀ session, meaning.apply session arguments = .ok { value, session }

/-- The action while one more key is held, outside those that it holds itself. -/
def Action.under (modifier : Modifier) : Action → Action
  | .hold modifiers body => .hold (modifier :: modifiers) body
  | body => .hold [modifier] body

variable {values rest : List Value} {production : Production}

namespace Meaning

variable {meaning : Meaning} {value other : Value} {token : Token}

theorem Gives.unique (h : meaning.Gives values value) (h' : meaning.Gives values other) :
    value = other := by
  have hsame := (h .awake).symm.trans (h' .awake)
  simpa using hsame

theorem Gives.iff (h : meaning.Gives values value) : meaning.Gives values other ↔ other = value :=
  ⟨fun hother => hother.unique h, fun hsame => hsame ▸ h⟩

/-- A plain meaning reads the values, and leaves the session alone. -/
theorem apply_plain
    (hplain : meaning ≠ .input ∧ meaning ≠ .tolerantInput ∧ meaning ≠ .sleepPhrase)
    (session : Session) (values : List Value) :
    meaning.apply session values =
      (do
        let value ← meaning.reader.on values
        .ok { value, session }) := by
  cases meaning with
  | input => simp at hplain
  | tolerantInput => simp at hplain
  | sleepPhrase => simp at hplain
  | _ => rfl

/-- A plain meaning gives what it reads. -/
theorem gives_iff_on
    (hplain : meaning ≠ .input ∧ meaning ≠ .tolerantInput ∧ meaning ≠ .sleepPhrase) :
    meaning.Gives values value ↔ meaning.reader.on values = .ok value := by
  simp only [Gives, apply_plain hplain]
  cases meaning.reader.on values with
  | error fault => simp [bind, Except.bind]
  | ok found => simp [bind, Except.bind]

/-- What a plain meaning reads from the values, it gives for them. -/
theorem gives_of_reads
    (hplain : meaning ≠ .input ∧ meaning ≠ .tolerantInput ∧ meaning ≠ .sleepPhrase)
    (h : Reads meaning.reader values value rest) : meaning.Gives values value :=
  (gives_iff_on hplain).mpr (congrArg Prod.fst h)

theorem gives_numberWord {expected : String} {find : String → Option UInt64} {number : UInt64}
    (hplain : meaning ≠ .input ∧ meaning ≠ .tolerantInput ∧ meaning ≠ .sleepPhrase)
    (hreader : meaning.reader = do
      let token ← ArgumentReader.token meaning.name
      .integer <$> lookUp meaning.name expected find token.kind)
    (hnumber : find token.kind = some number) :
    meaning.Gives [.token token] (.integer number) := by
  refine gives_of_reads hplain (?_ : Reads _ _ _ [])
  rw [hreader]
  exact (Reads.token token _).bind ((Reads.lookUp hnumber _).map _)

theorem gives_group {sum : UInt64} (h : sumArguments 0 values = .ok sum) :
    Meaning.group.Gives values (.integer sum) := by
  have hget : Reads (get : ArgumentReader (List Value)) values values values := rfl
  exact gives_of_reads (by simp)
    (hget.bind ((Reads.liftExcept h _).bind (Reads.pure _ _)))

theorem gives_hundreds {ones number : UInt64} (h : scaleAndAdd ones 100 0 = .ok number)
    (keyword : Value) : Meaning.hundreds.Gives [.integer ones, keyword] (.integer number) :=
  gives_of_reads (by simp)
    ((Reads.integer ones _).bind ((Reads.skip keyword _).bind ((Reads.liftExcept h _).map _)))

/-- A group, a scale word, and nothing or a smaller number. -/
theorem gives_scaled {scale : Scale} {head number : UInt64} {keyword : Value}
    {tail? : Option UInt64}
    (htail : Reads (ArgumentReader.integer? (Meaning.scaled scale).name) rest tail? [])
    (h : scaleAndAdd head scale.factor (tail?.getD 0) = .ok number) :
    (Meaning.scaled scale).Gives (.integer head :: keyword :: rest) (.integer number) :=
  gives_of_reads (by simp)
    ((Reads.integer head _).bind ((Reads.skip keyword _).bind
      (htail.bind ((Reads.liftExcept h _).map _))))

theorem gives_counted {α : Type} {expected : String} {find : String → Option α}
    {act : α → Action} {found : α} {count : Value} {repeats : Option UInt64}
    (hplain : meaning ≠ .input ∧ meaning ≠ .tolerantInput ∧ meaning ≠ .sleepPhrase)
    (hreader : meaning.reader = do
      let token ← ArgumentReader.token meaning.name
      let found ← lookUp meaning.name expected find token.kind
      let repeats ← ArgumentReader.integer? meaning.name
      return .node (Action.timesIf repeats (act found)))
    (hfound : find token.kind = some found)
    (hcount : Reads (ArgumentReader.integer? meaning.name) [count] repeats []) :
    meaning.Gives [.token token, count] (.node (Action.timesIf repeats (act found))) := by
  refine gives_of_reads hplain (?_ : Reads _ _ _ [])
  rw [hreader]
  exact (Reads.token token _).bind ((Reads.lookUp hfound _).bind (hcount.bind (Reads.pure _ _)))

theorem gives_letter {letter : Char} (h : Lexicon.letter? token.kind = some letter) :
    Meaning.letter.Gives [.token token] (.node (.char letter)) :=
  gives_of_reads (by simp)
    ((Reads.token token _).bind ((Reads.lookUp h _).bind (Reads.pure _ _)))

/-- The first word of a character's name tells it, whatever follows. -/
theorem gives_character {key : String} (h : Lexicon.character? token.kind = some key)
    (more : List Value) : Meaning.character.Gives (.token token :: more) (.node (.key key)) :=
  gives_of_reads (by simp)
    ((Reads.token token _).bind ((Reads.lookUp h _).bind (Reads.pure _ _)))

theorem gives_held {modifier : Modifier} (h : Modifier.ofWord? token.kind = some modifier)
    (body : Action) :
    Meaning.held.Gives [.token token, .node body] (.node (body.under modifier)) := by
  cases body <;> exact gives_of_reads (by simp)
    ((Reads.token token _).bind ((Reads.lookUp h _).bind
      ((Reads.node _ _).bind (Reads.pure _ _))))

end Meaning

theorem scaleAndAdd_ofNat (head multiplier tail : UInt64)
    (h : head.toNat * multiplier.toNat + tail.toNat < UInt64.size) :
    scaleAndAdd head multiplier tail =
      .ok (.ofNat (head.toNat * multiplier.toNat + tail.toNat)) :=
  (scaleAndAdd_eq head multiplier tail).trans (if_pos h)

namespace Commands

theorem mem_alternatives {lhs : Rule} {meaning : Meaning} {sides : List (List Symbol)} :
    production ∈ alternatives lhs meaning sides ↔
      ∃ side ∈ sides, production = ⟨lhs, side, meaning⟩ := by
  simp [alternatives, eq_comm]

theorem mem_oneWord {lhs : Rule} {meaning : Meaning} {words : List String} :
    production ∈ oneWord lhs meaning words ↔
      ∃ word ∈ words, production = ⟨lhs, [.terminal word], meaning⟩ := by
  simp [oneWord, t, eq_comm]

/-- What a plain meaning reads from the values is what its production means. -/
theorem means_of_reads (value : Value) (rest : List Value)
    (hplain : production.meaning ≠ .input ∧ production.meaning ≠ .tolerantInput ∧
      production.meaning ≠ .sleepPhrase)
    (hreads : Reads production.meaning.reader values value rest)
    (hshaped : Shaped production.lhs value) : Means production values :=
  ⟨value, hshaped, Meaning.gives_of_reads hplain hreads⟩

theorem scaleAndAdd_eq_ok (head multiplier tail : UInt64)
    (h : head.toNat * multiplier.toNat + tail.toNat < UInt64.size) :
    ∃ value, scaleAndAdd head multiplier tail = .ok value ∧
      value.toNat = head.toNat * multiplier.toNat + tail.toNat :=
  ⟨_, scaleAndAdd_ofNat head multiplier tail h, UInt64.toNat_ofNat_of_lt' h⟩

/-- A sum of bounded numbers is bounded by the sum of the bounds. -/
theorem sumArguments_eq_ok {bounds : List Nat} (hvalues : List.Forall₂ IsNumber bounds values)
    (total : UInt64) (h : total.toNat + bounds.sum < UInt64.size) :
    ∃ value, sumArguments total values = .ok value ∧ value.toNat ≤ total.toNat + bounds.sum := by
  induction hvalues generalizing total with
  | nil => exact ⟨total, rfl, Nat.le_add_right _ _⟩
  | @cons bound value bounds values hvalue _ ih =>
      obtain ⟨number, rfl, hnumber⟩ := hvalue
      rw [List.sum_cons] at h ⊢
      have hone : total.toNat * (1 : UInt64).toNat = total.toNat := Nat.mul_one _
      obtain ⟨next, hnext, htoNat⟩ :=
        scaleAndAdd_eq_ok total 1 number (by omega)
      obtain ⟨sum, hsum, hle⟩ := ih next (by omega)
      refine ⟨sum, ?_, by omega⟩
      rw [sumArguments, hnext]
      exact hsum

/-- Words whose values are looked up have small ones. -/
theorem means_numberWord (bound : Nat) {lhs : Rule} {meaning : Meaning} {words : List String}
    {find : String → Option UInt64} {expected : String}
    (hplain : meaning ≠ .input ∧ meaning ≠ .tolerantInput ∧ meaning ≠ .sleepPhrase)
    (hreader : meaning.reader = do
      let token ← ArgumentReader.token meaning.name
      .integer <$> Meaning.lookUp meaning.name expected find token.kind)
    (hshaped : Shaped lhs = IsNumber bound)
    (hwords : (words.all fun word => (find word).any fun value => value.toNat ≤ bound) = true)
    (hmem : production ∈ oneWord lhs meaning words)
    (hvalues : List.Forall₂ Matches production.rhs values) : Means production values := by
  obtain ⟨word, hword, rfl⟩ := mem_oneWord.mp hmem
  obtain ⟨_, _, ⟨token, rfl, rfl⟩, ⟨⟩, rfl⟩ := List.forall₂_cons_left_iff.mp hvalues
  have hfound := List.all_eq_true.mp hwords _ hword
  obtain ⟨number, hnumber, hle⟩ := (Option.any_eq_true _ _).mp hfound
  refine ⟨.integer number, ?_, Meaning.gives_numberWord hplain hreader hnumber⟩
  rw [hshaped]
  exact ⟨number, rfl, of_decide_eq_true hle⟩

/-- A number of hundreds at most, a scale word, and nothing or a smaller number. -/
theorem means_scaled (limit : Nat) {lhs : Rule} {scale : Scale} {tails : List Rule}
    (hshaped : Shaped lhs = IsNumber limit) (hlimit : limit < UInt64.size)
    (hhead : 999 * scale.factor.toNat ≤ limit)
    (htails : ∀ tail ∈ tails, ∃ bound, Shaped tail = IsNumber bound ∧
      999 * scale.factor.toNat + bound ≤ limit)
    (hmem : production ∈ numbers.scaled lhs scale tails)
    (hvalues : List.Forall₂ Matches production.rhs values) : Means production values := by
  obtain ⟨side, hside, rfl⟩ := mem_alternatives.mp hmem
  -- Whatever the tail, the number is the head's scaled and at most the limit.
  have hmeans : ∀ (head tail : UInt64) (rest : List Value) (value : Value), head.toNat ≤ 999 →
      999 * scale.factor.toNat + tail.toNat ≤ limit →
      (∃ tail?, Reads (ArgumentReader.integer? (Meaning.scaled scale).name) rest tail? [] ∧
        tail?.getD 0 = tail) →
      Means ⟨lhs, side, .scaled scale⟩ (.integer head :: value :: rest) := by
    rintro head tail rest value hle hsum ⟨tail?, htail, rfl⟩
    have hscaled : head.toNat * scale.factor.toNat ≤ 999 * scale.factor.toNat :=
      Nat.mul_le_mul_right _ hle
    obtain ⟨number, hnumber, htoNat⟩ :=
      scaleAndAdd_eq_ok head scale.factor (tail?.getD 0) (by omega)
    refine ⟨.integer number, ?_, Meaning.gives_scaled htail hnumber⟩
    rw [hshaped]
    exact ⟨number, rfl, by omega⟩
  rcases List.mem_cons.mp hside with rfl | htailed
  · simp only [List.forall₂_cons_left_iff] at hvalues
    obtain ⟨_, _, ⟨head, rfl, hle⟩, ⟨value, _, -, ⟨⟩, rfl⟩, rfl⟩ := hvalues
    exact hmeans head 0 [] value hle hhead ⟨none, Reads.no_integer, rfl⟩
  · obtain ⟨tail, hin, rfl⟩ := List.mem_map.mp htailed
    obtain ⟨bound, hbound, hsum⟩ := htails tail hin
    simp only [List.forall₂_cons_left_iff] at hvalues
    obtain ⟨_, _, ⟨head, rfl, hle⟩, ⟨value, _, -, ⟨_, _, htail, ⟨⟩, rfl⟩, rfl⟩, rfl⟩ := hvalues
    rw [n, Matches, hbound] at htail
    obtain ⟨number, rfl, hnumber⟩ := htail
    exact hmeans head number _ value hle (by omega) ⟨some number, Reads.integer? number _, rfl⟩

theorem means_group (hmem : production ∈ alternatives .group .group [
      [n .small], [n .tens], [n .tens, n .ones], [n .hundreds], [n .hundreds, n .small],
      [n .hundreds, n .tens], [n .hundreds, n .tens, n .ones]])
    (hvalues : List.Forall₂ Matches production.rhs values) : Means production values := by
  -- The bounds of the parts of a number add up to less than a thousand.
  have hmeans : ∀ (side : List Symbol) (bounds : List Nat), bounds.sum ≤ 999 →
      List.Forall₂ IsNumber bounds values → Means ⟨.group, side, .group⟩ values := by
    intro side bounds hbounds hnumbers
    have hzero : (0 : UInt64).toNat = 0 := rfl
    have hsize : UInt64.size = 18446744073709551616 := rfl
    obtain ⟨sum, hsum, hle⟩ := sumArguments_eq_ok hnumbers 0 (by omega)
    exact ⟨.integer sum, ⟨sum, rfl, by omega⟩, Meaning.gives_group hsum⟩
  obtain ⟨side, hside, rfl⟩ := mem_alternatives.mp hmem
  simp only [List.mem_cons, List.not_mem_nil, or_false] at hside
  rcases hside with rfl | rfl | rfl | rfl | rfl | rfl | rfl <;>
    simp only [n, List.forall₂_cons_left_iff, List.forall₂_nil_left_iff] at hvalues
  · obtain ⟨_, _, h, rfl, rfl⟩ := hvalues
    exact hmeans _ [19] (by decide) (.cons h .nil)
  · obtain ⟨_, _, h, rfl, rfl⟩ := hvalues
    exact hmeans _ [90] (by decide) (.cons h .nil)
  · obtain ⟨_, _, h, ⟨_, _, h', rfl, rfl⟩, rfl⟩ := hvalues
    exact hmeans _ [90, 9] (by decide) (.cons h (.cons h' .nil))
  · obtain ⟨_, _, h, rfl, rfl⟩ := hvalues
    exact hmeans _ [900] (by decide) (.cons h .nil)
  · obtain ⟨_, _, h, ⟨_, _, h', rfl, rfl⟩, rfl⟩ := hvalues
    exact hmeans _ [900, 19] (by decide) (.cons h (.cons h' .nil))
  · obtain ⟨_, _, h, ⟨_, _, h', rfl, rfl⟩, rfl⟩ := hvalues
    exact hmeans _ [900, 90] (by decide) (.cons h (.cons h' .nil))
  · obtain ⟨_, _, h, ⟨_, _, h', ⟨_, _, h'', rfl, rfl⟩, rfl⟩, rfl⟩ := hvalues
    exact hmeans _ [900, 90, 9] (by decide) (.cons h (.cons h' (.cons h'' .nil)))

theorem means_number (hmem : production ∈ alternatives .number .number
      ([.group, .thousands, .millions, .billions].map fun rule => [t Lexicon.number, n rule]))
    (hvalues : List.Forall₂ Matches production.rhs values) : Means production values := by
  obtain ⟨side, hside, rfl⟩ := mem_alternatives.mp hmem
  obtain ⟨rule, hrule, rfl⟩ := List.mem_map.mp hside
  simp only [n, List.forall₂_cons_left_iff, List.forall₂_nil_left_iff] at hvalues
  obtain ⟨keyword, _, -, ⟨_, _, hshaped, rfl, rfl⟩, rfl⟩ := hvalues
  obtain ⟨number, rfl⟩ : ∃ number, _ = Value.integer number := by
    simp only [List.mem_cons, List.not_mem_nil, or_false] at hrule
    rcases hrule with rfl | rfl | rfl | rfl <;> exact ⟨_, hshaped.choose_spec.1⟩
  refine means_of_reads (.node (.text (toString number.toNat))) [] (by simp) ?_
    ⟨_, rfl⟩
  exact (Reads.skip keyword _).bind ((Reads.integer number _).bind (Reads.pure _ _))

theorem means_hundreds
    (hmem : production ∈ alternatives .hundreds .hundreds [[n .ones, t Lexicon.hundred]])
    (hvalues : List.Forall₂ Matches production.rhs values) : Means production values := by
  obtain ⟨side, hside, rfl⟩ := mem_alternatives.mp hmem
  rw [List.mem_singleton] at hside
  subst hside
  simp only [n, List.forall₂_cons_left_iff, List.forall₂_nil_left_iff] at hvalues
  obtain ⟨_, _, ⟨ones, rfl, hle⟩, ⟨keyword, _, -, rfl, rfl⟩, rfl⟩ := hvalues
  have hsize : UInt64.size = 18446744073709551616 := rfl
  have hhundred : ones.toNat * (100 : UInt64).toNat = ones.toNat * 100 := rfl
  have hzero : (0 : UInt64).toNat = 0 := rfl
  obtain ⟨number, hnumber, htoNat⟩ :=
    scaleAndAdd_eq_ok ones 100 0 (by omega)
  exact ⟨.integer number, ⟨number, rfl, by omega⟩, Meaning.gives_hundreds hnumber keyword⟩

theorem means_numbers (hmem : production ∈ numbers)
    (hvalues : List.Forall₂ Matches production.rhs values) : Means production values := by
  simp only [numbers, List.mem_append] at hmem
  rcases hmem with ((((((((h | h) | h) | h) | h) | h) | h) | h) | h)
  · exact means_number h hvalues
  · exact means_group h hvalues
  · exact means_numberWord 9 (by simp) rfl rfl (by decide) h hvalues
  · exact means_numberWord 19 (by simp) rfl rfl (by decide) h hvalues
  · exact means_numberWord 90 (by simp) rfl rfl (by decide) h hvalues
  · exact means_hundreds h hvalues
  · refine means_scaled 999999 rfl (by decide) (by decide) ?_ h hvalues
    intro tail htail
    rw [List.mem_singleton] at htail
    exact ⟨999, by rw [htail]; rfl, by decide⟩
  · refine means_scaled 999999999 rfl (by decide) (by decide) ?_ h hvalues
    intro tail htail
    simp only [List.mem_cons, List.not_mem_nil, or_false] at htail
    rcases htail with rfl | rfl
    · exact ⟨999, rfl, by decide⟩
    · exact ⟨999999, rfl, by decide⟩
  · refine means_scaled 999999999999 rfl (by decide) (by decide) ?_ h hvalues
    intro tail htail
    simp only [List.mem_cons, List.not_mem_nil, or_false] at htail
    rcases htail with rfl | rfl | rfl
    · exact ⟨999, rfl, by decide⟩
    · exact ⟨999999, rfl, by decide⟩
    · exact ⟨999999999, rfl, by decide⟩

theorem means_commands
    (hmem : production ∈ alternatives .commands .commands [[n .command], [n .command, n .commands]])
    (hvalues : List.Forall₂ Matches production.rhs values) : Means production values := by
  obtain ⟨side, hside, rfl⟩ := mem_alternatives.mp hmem
  simp only [List.mem_cons, List.not_mem_nil, or_false] at hside
  rcases hside with rfl | rfl <;>
    simp only [n, List.forall₂_cons_left_iff, List.forall₂_nil_left_iff] at hvalues
  · obtain ⟨_, _, ⟨first, rfl⟩, rfl, rfl⟩ := hvalues
    refine means_of_reads (.node (.chain [first])) [] (by simp) ?_ ⟨_, _, rfl⟩
    exact (Reads.node first _).bind (Reads.no_node.bind (Reads.pure _ _))
  · obtain ⟨_, _, ⟨first, rfl⟩, ⟨_, _, ⟨second, rest, rfl⟩, rfl, rfl⟩, rfl⟩ := hvalues
    refine means_of_reads (.node (.chain (first :: second :: rest))) []
      (by simp) ?_ ⟨_, _, rfl⟩
    exact (Reads.node first _).bind ((Reads.node? _ _).bind (Reads.pure _ _))

theorem shaped_kind {kind : Rule} (hkind : kind ∈ kinds) {value : Value}
    (hshaped : Shaped kind value) : ∃ action, value = .node action := by
  simp only [kinds, List.mem_cons, List.not_mem_nil, or_false] at hkind
  rcases hkind with rfl | rfl | rfl | rfl | rfl | rfl | rfl | rfl | rfl | rfl | rfl
  · obtain ⟨letter, rfl⟩ := hshaped
    exact ⟨_, rfl⟩
  · obtain ⟨letter, rfl⟩ := hshaped
    exact ⟨_, rfl⟩
  all_goals exact hshaped

theorem means_command (hmem : production ∈ alternatives .command .command
      (kinds.map fun kind => [n kind]))
    (hvalues : List.Forall₂ Matches production.rhs values) : Means production values := by
  obtain ⟨side, hside, rfl⟩ := mem_alternatives.mp hmem
  obtain ⟨kind, hkind, rfl⟩ := List.mem_map.mp hside
  simp only [n, List.forall₂_cons_left_iff, List.forall₂_nil_left_iff] at hvalues
  obtain ⟨_, _, hshaped, rfl, rfl⟩ := hvalues
  obtain ⟨action, rfl⟩ := shaped_kind hkind hshaped
  exact means_of_reads (.node action) [] (by simp)
    ((Reads.node action _).map _) ⟨action, rfl⟩

theorem means_count (hmem : production ∈ alternatives .count .count [[], [n .group]])
    (hvalues : List.Forall₂ Matches production.rhs values) : Means production values := by
  obtain ⟨side, hside, rfl⟩ := mem_alternatives.mp hmem
  simp only [List.mem_cons, List.not_mem_nil, or_false] at hside
  rcases hside with rfl | rfl <;>
    simp only [n, List.forall₂_cons_left_iff, List.forall₂_nil_left_iff] at hvalues
  · subst hvalues
    exact means_of_reads .absent [] (by simp)
      (Reads.no_integer.bind (Reads.pure _ _)) (.inl rfl)
  · obtain ⟨_, _, ⟨number, rfl, hle⟩, rfl, rfl⟩ := hvalues
    exact means_of_reads (.integer number) [] (by simp)
      ((Reads.integer? number _).bind (Reads.pure _ _)) (.inr ⟨number, rfl, hle⟩)

theorem reads_count {value : Value} (hshaped : Shaped .count value) (name : String) :
    ∃ repeats, Reads (ArgumentReader.integer? name) [value] repeats [] := by
  rcases hshaped with rfl | ⟨number, rfl, -⟩
  · exact ⟨none, Reads.absent_integer _⟩
  · exact ⟨some number, Reads.integer? number _⟩

/-- A word that is looked up and a count make an action done so often. -/
theorem means_counted {α : Type} (lhs : Rule) (meaning : Meaning) (words : List String)
    {expected : String} {find : String → Option α} {action : α → Action}
    (hplain : meaning ≠ .input ∧ meaning ≠ .tolerantInput ∧ meaning ≠ .sleepPhrase)
    (hreader : meaning.reader = do
      let token ← ArgumentReader.token meaning.name
      let found ← Meaning.lookUp meaning.name expected find token.kind
      let repeats ← ArgumentReader.integer? meaning.name
      return .node (Action.timesIf repeats (action found)))
    (hshaped : ∀ action, Shaped lhs (.node action))
    (hwords : (words.all fun word => (find word).isSome) = true)
    (hmem : production ∈ alternatives lhs meaning (words.map fun word => [t word, n .count]))
    (hvalues : List.Forall₂ Matches production.rhs values) : Means production values := by
  obtain ⟨side, hside, rfl⟩ := mem_alternatives.mp hmem
  obtain ⟨word, hword, rfl⟩ := List.mem_map.mp hside
  simp only [n, t, List.forall₂_cons_left_iff, List.forall₂_nil_left_iff] at hvalues
  obtain ⟨_, _, ⟨token, rfl, rfl⟩, ⟨count, _, hcount, rfl, rfl⟩, rfl⟩ := hvalues
  obtain ⟨found, hfound⟩ := Option.isSome_iff_exists.mp (List.all_eq_true.mp hwords _ hword)
  obtain ⟨repeats, hrepeats⟩ := reads_count hcount meaning.name
  exact ⟨_, hshaped _, Meaning.gives_counted hplain hreader hfound hrepeats⟩

theorem means_chains (hmem : production ∈ chains)
    (hvalues : List.Forall₂ Matches production.rhs values) : Means production values := by
  simp only [chains, List.mem_append] at hmem
  rcases hmem with (((h | h) | h) | h)
  · exact means_commands h hvalues
  · exact means_command h hvalues
  · refine means_counted .movement .movement (Direction.all.map Direction.word) (by simp) rfl
      (fun action => ⟨action, rfl⟩) (by decide) ?_ hvalues
    rw [List.map_map]
    exact h
  · exact means_count h hvalues

theorem means_skyLetter
    (hmem : production ∈ alternatives .skyLetter .skyLetter [[t Lexicon.sky, n .letter]])
    (hvalues : List.Forall₂ Matches production.rhs values) : Means production values := by
  obtain ⟨side, hside, rfl⟩ := mem_alternatives.mp hmem
  rw [List.mem_singleton] at hside
  subst hside
  simp only [n, List.forall₂_cons_left_iff, List.forall₂_nil_left_iff] at hvalues
  obtain ⟨keyword, _, -, ⟨_, _, ⟨letter, rfl⟩, rfl, rfl⟩, rfl⟩ := hvalues
  exact means_of_reads (.node (.char letter.toUpper)) [] (by simp)
    ((Reads.skip keyword _).bind ((Reads.node _ _).bind (Reads.pure _ _))) ⟨_, rfl⟩

theorem means_letter (hmem : production ∈ oneWord .letter .letter Lexicon.letterWords)
    (hvalues : List.Forall₂ Matches production.rhs values) : Means production values := by
  obtain ⟨word, hword, rfl⟩ := mem_oneWord.mp hmem
  simp only [List.forall₂_cons_left_iff, List.forall₂_nil_left_iff] at hvalues
  obtain ⟨_, _, ⟨token, rfl, rfl⟩, rfl, rfl⟩ := hvalues
  have hwords : (Lexicon.letterWords.all fun word => (Lexicon.letter? word).isSome) = true := by
    decide
  obtain ⟨letter, hletter⟩ := Option.isSome_iff_exists.mp (List.all_eq_true.mp hwords _ hword)
  exact ⟨_, ⟨letter, rfl⟩, Meaning.gives_letter hletter⟩

theorem means_character (hmem : production ∈ alternatives .character .character
      (Lexicon.characters.map fun entry => entry.1.map t))
    (hvalues : List.Forall₂ Matches production.rhs values) : Means production values := by
  obtain ⟨side, hside, rfl⟩ := mem_alternatives.mp hmem
  obtain ⟨entry, hentry, rfl⟩ := List.mem_map.mp hside
  have hwords : (Lexicon.characters.all fun entry =>
      match entry.1 with
      | [] => false
      | word :: _ => (Lexicon.character? word).isSome) = true := by
    decide
  have hword := List.all_eq_true.mp hwords entry hentry
  obtain ⟨name, key⟩ := entry
  cases name with
  | nil => cases hword
  | cons word more =>
      obtain ⟨found, hfound⟩ := Option.isSome_iff_exists.mp hword
      obtain ⟨_, rest, ⟨token, rfl, rfl⟩, -, rfl⟩ := List.forall₂_cons_left_iff.mp hvalues
      exact ⟨_, ⟨.key found, rfl⟩, Meaning.gives_character hfound rest⟩

theorem means_held (hmem : production ∈ alternatives .held .held
      (Modifier.spoken.map fun entry => [t entry.1, n .command]))
    (hvalues : List.Forall₂ Matches production.rhs values) : Means production values := by
  obtain ⟨side, hside, rfl⟩ := mem_alternatives.mp hmem
  obtain ⟨entry, hentry, rfl⟩ := List.mem_map.mp hside
  simp only [n, t, List.forall₂_cons_left_iff, List.forall₂_nil_left_iff] at hvalues
  obtain ⟨_, _, ⟨token, rfl, hkind⟩, ⟨_, _, ⟨action, rfl⟩, rfl, rfl⟩, rfl⟩ := hvalues
  have hwords : (Modifier.spoken.all fun entry => (Modifier.ofWord? entry.1).isSome) = true := by
    decide
  obtain ⟨modifier, hmodifier⟩ :=
    Option.isSome_iff_exists.mp (List.all_eq_true.mp hwords _ hentry)
  rw [← hkind] at hmodifier
  exact ⟨_, ⟨action.under modifier, rfl⟩, Meaning.gives_held hmodifier action⟩

theorem means_keys (hmem : production ∈ keys)
    (hvalues : List.Forall₂ Matches production.rhs values) : Means production values := by
  simp only [keys, List.mem_append] at hmem
  rcases hmem with ((((h | h) | h) | h) | h)
  · exact means_skyLetter h hvalues
  · exact means_letter h hvalues
  · exact means_character h hvalues
  · refine means_counted .editing .editing (Lexicon.editing.map Prod.fst) (by simp) rfl
      (fun action => ⟨action, rfl⟩) (by decide) ?_ hvalues
    rw [List.map_map]
    exact h
  · exact means_held h hvalues

theorem means_spelledWord
    (hmem : production ∈ alternatives .spelledWord .spelledWord [[t Lexicon.word, any]])
    (hvalues : List.Forall₂ Matches production.rhs values) : Means production values := by
  obtain ⟨side, hside, rfl⟩ := mem_alternatives.mp hmem
  rw [List.mem_singleton] at hside
  subst hside
  simp only [any, t, List.forall₂_cons_left_iff, List.forall₂_nil_left_iff] at hvalues
  obtain ⟨keyword, _, -, ⟨_, _, ⟨token, rfl, -⟩, rfl, rfl⟩, rfl⟩ := hvalues
  exact means_of_reads (.node (.text token.text)) [] (by simp)
    ((Reads.skip keyword _).bind ((Reads.token token _).bind (Reads.pure _ _))) ⟨_, rfl⟩

/-- A run of words is capitalised whatever it is. -/
theorem reads_capitalizedRun (production : String) (keyword : Value) (words : List Action) :
    ∃ action, Reads (Meaning.capitalizedRun production) [keyword, .node (.words words)]
      (.node action) [] := by
  have hreads {next : Action → ArgumentReader Value} {result : Value}
      (hnext : Reads (next (.words words)) [] result []) :
      Reads (ArgumentReader.skip production >>= fun _ => ArgumentReader.node production >>= next)
        [keyword, .node (.words words)] result [] :=
    (Reads.skip keyword _).bind ((Reads.node _ _).bind hnext)
  cases words with
  | nil => exact ⟨_, hreads (Reads.pure _ _)⟩
  | cons first rest => cases first <;> exact ⟨_, hreads (Reads.pure _ _)⟩

theorem means_wordRun
    (hmem : production ∈ alternatives .wordRun .wordRun [[n .rawWord], [n .rawWord, n .wordRun]])
    (hvalues : List.Forall₂ Matches production.rhs values) : Means production values := by
  obtain ⟨side, hside, rfl⟩ := mem_alternatives.mp hmem
  simp only [List.mem_cons, List.not_mem_nil, or_false] at hside
  rcases hside with rfl | rfl <;>
    simp only [n, List.forall₂_cons_left_iff, List.forall₂_nil_left_iff] at hvalues
  · obtain ⟨_, _, ⟨first, rfl⟩, rfl, rfl⟩ := hvalues
    exact means_of_reads (.node (.words [.word first])) [] (by simp)
      ((Reads.word first _).bind (Reads.no_node.bind (Reads.pure _ _))) ⟨_, rfl⟩
  · obtain ⟨_, _, ⟨first, rfl⟩, ⟨_, _, ⟨words, rfl⟩, rfl, rfl⟩, rfl⟩ := hvalues
    exact means_of_reads (.node (.words (.word first :: words))) [] (by simp)
      ((Reads.word first _).bind ((Reads.node? _ _).bind (Reads.pure _ _))) ⟨_, rfl⟩

theorem means_rawWord (hmem : production ∈ alternatives .rawWord .rawWord
      ([any] :: Lexicon.rawNumberWords.map fun word => [t word]))
    (hvalues : List.Forall₂ Matches production.rhs values) : Means production values := by
  obtain ⟨side, hside, rfl⟩ := mem_alternatives.mp hmem
  obtain ⟨label, rfl⟩ : ∃ label, side = [t label] := by
    rcases List.mem_cons.mp hside with rfl | hword
    · exact ⟨_, rfl⟩
    · obtain ⟨word, -, rfl⟩ := List.mem_map.mp hword
      exact ⟨word, rfl⟩
  simp only [t, List.forall₂_cons_left_iff, List.forall₂_nil_left_iff] at hvalues
  obtain ⟨_, _, ⟨token, rfl, -⟩, rfl, rfl⟩ := hvalues
  exact means_of_reads (.word token.text) [] (by simp)
    ((Reads.token token _).bind (Reads.pure _ _)) ⟨_, rfl⟩

/-- A keyword and a run of words make an action, however the run is treated. -/
theorem means_run (lhs : Rule) (meaning : Meaning) {keyword : String}
    (hplain : meaning ≠ .input ∧ meaning ≠ .tolerantInput ∧ meaning ≠ .sleepPhrase)
    (hreads : ∀ (keyword : Value) (words : List Action), ∃ action,
      Reads meaning.reader [keyword, .node (.words words)] (.node action) [])
    (hshaped : ∀ action, Shaped lhs (.node action))
    (hmem : production ∈ alternatives lhs meaning [[t keyword, n .wordRun]])
    (hvalues : List.Forall₂ Matches production.rhs values) : Means production values := by
  obtain ⟨side, hside, rfl⟩ := mem_alternatives.mp hmem
  rw [List.mem_singleton] at hside
  subst hside
  simp only [n, List.forall₂_cons_left_iff, List.forall₂_nil_left_iff] at hvalues
  obtain ⟨keyword, _, -, ⟨_, _, ⟨words, rfl⟩, rfl, rfl⟩, rfl⟩ := hvalues
  obtain ⟨action, haction⟩ := hreads keyword words
  exact means_of_reads _ _ hplain haction (hshaped action)

theorem means_freeText (hmem : production ∈ freeText)
    (hvalues : List.Forall₂ Matches production.rhs values) : Means production values := by
  simp only [freeText, List.mem_append] at hmem
  rcases hmem with (((((h | h) | h) | h) | h) | h)
  · exact means_spelledWord h hvalues
  · exact means_run .sentence .sentence (by simp) (reads_capitalizedRun _)
      (fun action => ⟨action, rfl⟩) h hvalues
  · exact means_run .identifier .identifier (by simp) (reads_capitalizedRun _)
      (fun action => ⟨action, rfl⟩) h hvalues
  · refine means_run .phrase .phrase (by simp)
      (fun keyword words => ⟨.words words, ?_⟩) (fun action => ⟨action, rfl⟩) h hvalues
    exact (Reads.skip keyword _).bind ((Reads.node _ _).map _)
  · exact means_wordRun h hvalues
  · exact means_rawWord h hvalues

/-- Every production that has nothing to do with the session means something
whenever the values of its symbols have their shapes. -/
theorem means_of_mem (hmem : production ∈ productions)
    (hplain : production.lhs.turnsSession = false)
    (hvalues : List.Forall₂ Matches production.rhs values) : Means production values := by
  simp only [productions, List.mem_append] at hmem
  rcases hmem with (((h | h) | h) | h) | h
  · -- Of the utterances only filler words leave the session out.
    simp only [utterances, List.mem_append, mem_alternatives] at h
    rcases h with ((⟨side, -, rfl⟩ | ⟨side, -, rfl⟩) | ⟨side, -, rfl⟩) | ⟨side, -, rfl⟩
    · cases hplain
    · cases hplain
    · exact means_of_reads .absent values (by simp) (Reads.pure _ _) rfl
    · cases hplain
  · exact means_chains h hvalues
  · exact means_numbers h hvalues
  · exact means_keys h hvalues
  · exact means_freeText h hvalues

end Commands

end SpokenKeys
