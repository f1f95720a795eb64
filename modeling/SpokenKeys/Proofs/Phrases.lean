import SpokenKeys.Proofs.Yields

/-!
The phrases of the command grammar, one statement for each nonterminal: which
tokens are a phrase, and which value they have.
-/

namespace SpokenKeys

namespace Yields

variable {table : List Production} {tokens : List Token} {values : List Value}

/-- Terminals are said by tokens of their labels. -/
theorem terminals_iff {words : List String} :
    Yields table (words.map .terminal) tokens values ↔
      tokens.map Token.kind = words ∧ values = tokens.map .token := by
  induction words generalizing tokens values with
  | nil =>
      rw [List.map_nil, nil_iff, List.map_eq_nil_iff]
      constructor
      · rintro ⟨rfl, rfl⟩
        exact ⟨rfl, rfl⟩
      · rintro ⟨rfl, rfl⟩
        exact ⟨rfl, rfl⟩
  | cons word words ih =>
      rw [List.map_cons, terminal_iff]
      constructor
      · rintro ⟨token, rest, more, rfl, rfl, rfl, hrest⟩
        obtain ⟨rfl, rfl⟩ := ih.mp hrest
        exact ⟨rfl, rfl⟩
      · rintro ⟨hkinds, rfl⟩
        obtain ⟨token, rest, rfl, hkind, hrest⟩ := List.map_eq_cons_iff.mp hkinds
        exact ⟨token, rest, _, rfl, rfl, hkind, ih.mpr ⟨hrest, rfl⟩⟩

end Yields

namespace Commands

/-- The tokens are a phrase of the nonterminal, and that is its value. -/
def Says (rule : Rule) (tokens : List Token) (value : Value) : Prop :=
  Yields grammar.table [.rule rule] tokens [value]

variable {rule tail element : Rule} {meaning : Meaning} {tokens : List Token} {value : Value}
  {words : List String} {action : Action} {number : UInt64}

theorem Says.shaped (h : Says rule tokens value) : Shaped rule value := shaped_of_yields h

theorem Says.derives (h : Says rule tokens value) :
    Derives grammar.table [.rule rule] (tokens.map Token.kind) :=
  Yields.derives h

theorem Says.shortest_le (h : Says rule tokens value) : outline.shortest rule ≤ tokens.length := by
  have hle := fits.shortestOf_le h.derives
  rwa [List.length_map] at hle

/-- A phrase is said as one of the right-hand sides of its nonterminal. -/
theorem says_iff (meaning : Meaning) (sides : List (List Symbol))
    (h : productions.filter (fun production => production.lhs == rule) =
      alternatives rule meaning sides) :
    Says rule tokens value ↔ ∃ side ∈ sides, ∃ arguments,
      Yields grammar.table side tokens arguments ∧ meaning.Gives arguments value := by
  rw [Says, Yields.single_iff]
  constructor
  · rintro ⟨production, hmem, hlhs, arguments, hinner, hgives⟩
    rw [table_eq] at hmem
    obtain ⟨side, hside, rfl⟩ := (mem_iff_side h).mp ⟨hmem, hlhs⟩
    exact ⟨side, hside, arguments, hinner, hgives⟩
  · rintro ⟨side, hside, arguments, hinner, hgives⟩
    obtain ⟨hmem, hlhs⟩ := (mem_iff_side h).mpr ⟨side, hside, rfl⟩
    rw [← table_eq] at hmem
    exact ⟨_, hmem, hlhs, arguments, hinner, hgives⟩

/-- A nonterminal whose phrases are single words. -/
theorem says_word (meaning : Meaning) (words : List String)
    (h : productions.filter (fun production => production.lhs == rule) =
      alternatives rule meaning (words.map fun word => [t word])) :
    Says rule tokens value ↔ ∃ token, tokens = [token] ∧ token.kind ∈ words ∧
      meaning.Gives [.token token] value := by
  rw [says_iff meaning _ h]
  constructor
  · rintro ⟨side, hside, arguments, hyields, hgives⟩
    obtain ⟨word, hword, rfl⟩ := List.mem_map.mp hside
    obtain ⟨token, rest, more, rfl, rfl, rfl, hnil⟩ := Yields.terminal_iff.mp hyields
    obtain ⟨rfl, rfl⟩ := Yields.nil_iff.mp hnil
    exact ⟨token, rfl, hword, hgives⟩
  · rintro ⟨token, rfl, hword, hgives⟩
    exact ⟨_, List.mem_map_of_mem hword, _, .terminal .nil, hgives⟩

/-- A nonterminal whose phrases are a word and a phrase of another one. -/
theorem says_keyword (meaning : Meaning) (words : List String) (tail : Rule)
    (h : productions.filter (fun production => production.lhs == rule) =
      alternatives rule meaning (words.map fun word => [t word, n tail])) :
    Says rule tokens value ↔ ∃ token rest inner, tokens = token :: rest ∧ token.kind ∈ words ∧
      Says tail rest inner ∧ meaning.Gives [.token token, inner] value := by
  rw [says_iff meaning _ h]
  constructor
  · rintro ⟨side, hside, arguments, hyields, hgives⟩
    obtain ⟨word, hword, rfl⟩ := List.mem_map.mp hside
    obtain ⟨token, rest, more, rfl, rfl, rfl, hrest⟩ := Yields.terminal_iff.mp hyields
    obtain ⟨inner, rfl, hinner⟩ := Yields.last_iff.mp hrest
    exact ⟨token, rest, inner, rfl, hword, hinner, hgives⟩
  · rintro ⟨token, rest, inner, rfl, hword, hinner, hgives⟩
    exact ⟨_, List.mem_map_of_mem hword, _, .terminal hinner, hgives⟩

/-- A nonterminal whose phrases are one or more phrases of another one, which
its meaning lists in the order they are said. -/
theorem says_run {α : Type} (meaning : Meaning) (element : Rule) (item : α → Value)
    (list : List α → Value)
    (h : productions.filter (fun production => production.lhs == rule) =
      alternatives rule meaning [[n element], [n element, n rule]])
    (hshortest : outline.shortest element ≠ 0)
    (hitem : ∀ tokens value, Says element tokens value → ∃ entry, value = item entry)
    (hone : ∀ entry, meaning.Gives [item entry] (list [entry]))
    (hmore : ∀ entry entries, meaning.Gives [item entry, list entries] (list (entry :: entries))) :
    Says rule tokens value ↔ ∃ pieces entries, pieces ≠ [] ∧ pieces.flatten = tokens ∧
      List.Forall₂ (fun piece entry => Says element piece (item entry)) pieces entries ∧
      value = list entries := by
  constructor
  · intro hphrase
    induction hlength : tokens.length using Nat.strongRecOn generalizing tokens value with
    | ind length ih =>
        obtain ⟨side, hside, arguments, hyields, hgives⟩ := (says_iff meaning _ h).mp hphrase
        simp only [List.mem_cons, List.not_mem_nil, or_false] at hside
        rcases hside with rfl | rfl
        · obtain ⟨first, rfl, hfirst⟩ := Yields.last_iff.mp hyields
          obtain ⟨entry, rfl⟩ := hitem tokens first hfirst
          exact ⟨[tokens], [entry], List.cons_ne_nil _ _, List.flatten_singleton,
            .cons hfirst .nil, hgives.unique (hone entry)⟩
        · obtain ⟨front, back, first, more, rfl, rfl, hfirst, hrest⟩ := Yields.rule_iff.mp hyields
          obtain ⟨rest, rfl, hrest⟩ := Yields.last_iff.mp hrest
          obtain ⟨entry, rfl⟩ := hitem front first hfirst
          have hfront := Says.shortest_le hfirst
          have hshorter : back.length < length := by
            rw [← hlength, List.length_append]
            omega
          obtain ⟨pieces, entries, -, rfl, hpieces, rfl⟩ := ih _ hshorter hrest rfl
          exact ⟨front :: pieces, entry :: entries, List.cons_ne_nil _ _, List.flatten_cons,
            .cons hfirst hpieces, hgives.unique (hmore entry entries)⟩
  · rintro ⟨pieces, entries, hnonempty, rfl, hpieces, rfl⟩
    induction hpieces with
    | nil => exact absurd rfl hnonempty
    | @cons piece entry pieces entries hpiece hrest ih =>
        cases hrest with
        | nil =>
            rw [List.flatten_singleton]
            exact (says_iff meaning _ h).mpr ⟨_, List.mem_cons_self, _, hpiece, hone entry⟩
        | cons hsecond hrest =>
            have hback := ih (List.cons_ne_nil _ _)
            rw [List.flatten_cons]
            refine (says_iff meaning _ h).mpr ⟨[n element, n rule], by simp, _, ?_, hmore entry _⟩
            exact Yields.rule_iff.mpr ⟨_, _, _, _, rfl, rfl, hpiece, hback⟩

theorem says_commands : Says .commands tokens value ↔
    ∃ pieces actions, pieces ≠ [] ∧ pieces.flatten = tokens ∧
      List.Forall₂ (fun piece action => Says .command piece (.node action)) pieces actions ∧
      value = .node (.chain actions) :=
  says_run .commands .command .node (fun actions => .node (.chain actions)) rfl
    (by decide) (fun _ _ h => h.shaped) (fun _ _ => rfl) (fun _ _ _ => rfl)

theorem says_command :
    Says .command tokens (.node action) ↔ ∃ kind ∈ kinds, Says kind tokens (.node action) := by
  have hgives (action : Action) : Meaning.command.Gives [.node action] (.node action) :=
    fun _ => rfl
  rw [says_iff .command (kinds.map fun kind => [n kind]) rfl]
  constructor
  · rintro ⟨side, hside, arguments, hyields, hvalue⟩
    obtain ⟨kind, hkind, rfl⟩ := List.mem_map.mp hside
    obtain ⟨value, rfl, hphrase⟩ := Yields.last_iff.mp hyields
    obtain ⟨other, rfl⟩ := shaped_kind hkind (Says.shaped hphrase)
    rw [(hgives other).iff] at hvalue
    exact ⟨kind, hkind, hvalue ▸ hphrase⟩
  · rintro ⟨kind, hkind, hphrase⟩
    exact ⟨_, List.mem_map_of_mem hkind, _, hphrase, hgives action⟩

/-- One command alone is a chain. -/
theorem Says.chain (h : Says .command tokens (.node action)) :
    Says .commands tokens (.node (.chain [action])) :=
  says_commands.mpr ⟨[tokens], [action], by simp, List.flatten_singleton, .cons h .nil, rfl⟩

theorem Says.chain_single {kind : Rule} (hkind : kind ∈ kinds)
    (hphrase : Says kind tokens (.node action)) :
    Says .commands tokens (.node (.chain [action])) :=
  Says.chain (says_command.mpr ⟨kind, hkind, hphrase⟩)

theorem says_count : Says .count tokens value ↔
    tokens = [] ∧ value = .absent ∨
      ∃ number, Says .group tokens (.integer number) ∧ value = .integer number := by
  have habsent : Meaning.count.Gives [] .absent := fun _ => rfl
  have hgives (number : UInt64) : Meaning.count.Gives [.integer number] (.integer number) :=
    fun _ => rfl
  rw [says_iff .count [[], [n .group]] rfl]
  constructor
  · rintro ⟨side, hside, arguments, hyields, hvalue⟩
    simp only [List.mem_cons, List.not_mem_nil, or_false] at hside
    rcases hside with rfl | rfl
    · obtain ⟨rfl, rfl⟩ := Yields.nil_iff.mp hyields
      exact .inl ⟨rfl, habsent.iff.mp hvalue⟩
    · obtain ⟨group, rfl, hgroup⟩ := Yields.last_iff.mp hyields
      obtain ⟨number, rfl, -⟩ := Says.shaped hgroup
      exact .inr ⟨number, hgroup, (hgives number).iff.mp hvalue⟩
  · rintro (⟨rfl, rfl⟩ | ⟨number, hgroup, rfl⟩)
    · exact ⟨[], by simp, [], .nil, habsent⟩
    · exact ⟨[n .group], by simp, _, hgroup, hgives number⟩

/-- A word that is looked up, and nothing or a number of times. -/
theorem says_counted {α : Type} (meaning : Meaning) (words : List String) {expected : String}
    {find : String → Option α} {act : α → Action}
    (hplain : meaning ≠ .input ∧ meaning ≠ .tolerantInput ∧ meaning ≠ .sleepPhrase)
    (hreader : meaning.reader = do
      let token ← ArgumentReader.token meaning.name
      let found ← Meaning.lookUp meaning.name expected find token.kind
      let repeats ← ArgumentReader.integer? meaning.name
      return .node (Action.timesIf repeats (act found)))
    (hwords : ∀ word ∈ words, ∃ found, find word = some found)
    (h : productions.filter (fun production => production.lhs == rule) =
      alternatives rule meaning (words.map fun word => [t word, n .count])) :
    Says rule tokens value ↔ ∃ token rest found, tokens = token :: rest ∧ token.kind ∈ words ∧
      find token.kind = some found ∧
      (rest = [] ∧ value = .node (act found) ∨
        ∃ number, Says .group rest (.integer number) ∧ value = .node (.times number (act found))) := by
  have hgives {token : Token} {found : α} (hfound : find token.kind = some found)
      {count : Value} {repeats : Option UInt64}
      (hcount : Reads (ArgumentReader.integer? meaning.name) [count] repeats []) :
      meaning.Gives [.token token, count] (.node (Action.timesIf repeats (act found))) :=
    Meaning.gives_counted hplain hreader hfound hcount
  rw [says_keyword meaning words _ h]
  constructor
  · rintro ⟨token, rest, inner, rfl, hword, hinner, hvalue⟩
    obtain ⟨found, hfound⟩ := hwords _ hword
    refine ⟨token, rest, found, rfl, hword, hfound, ?_⟩
    rcases says_count.mp hinner with ⟨rfl, rfl⟩ | ⟨number, hgroup, rfl⟩
    · exact .inl ⟨rfl, hvalue.unique (hgives hfound (Reads.absent_integer _))⟩
    · exact .inr ⟨number, hgroup, hvalue.unique (hgives hfound (Reads.integer? number _))⟩
  · rintro ⟨token, rest, found, rfl, hword, hfound, ⟨rfl, rfl⟩ | ⟨number, hgroup, rfl⟩⟩
    · exact ⟨token, [], .absent, rfl, hword, says_count.mpr (.inl ⟨rfl, rfl⟩),
        hgives hfound (Reads.absent_integer _)⟩
    · exact ⟨token, rest, .integer number, rfl, hword, says_count.mpr (.inr ⟨number, hgroup, rfl⟩),
        hgives hfound (Reads.integer? number _)⟩

theorem says_movement : Says .movement tokens value ↔ ∃ token rest direction,
    tokens = token :: rest ∧ token.kind = Direction.word direction ∧
      (rest = [] ∧ value = .node (.move direction) ∨
        ∃ number, Says .group rest (.integer number) ∧
          value = .node (.times number (.move direction))) := by
  have hword (direction : Direction) : Direction.ofWord? direction.word = some direction := by
    cases direction <;> decide
  have hwords : ∀ word ∈ Direction.all.map Direction.word,
      ∃ direction, Direction.ofWord? word = some direction := by
    intro word hmem
    obtain ⟨direction, -, rfl⟩ := List.mem_map.mp hmem
    exact ⟨direction, hword direction⟩
  have hall (direction : Direction) : direction ∈ Direction.all := by cases direction <;> decide
  rw [says_counted .movement (Direction.all.map Direction.word) (by simp) rfl hwords rfl]
  constructor
  · rintro ⟨token, rest, direction, rfl, hmem, hfound, hvalue⟩
    obtain ⟨spoken, -, hspoken⟩ := List.mem_map.mp hmem
    rw [← hspoken, hword, Option.some.injEq] at hfound
    exact ⟨token, rest, direction, rfl, by rw [← hspoken, hfound], hvalue⟩
  · rintro ⟨token, rest, direction, rfl, hkind, hvalue⟩
    exact ⟨token, rest, direction, rfl, hkind ▸ List.mem_map_of_mem (hall direction),
      hkind ▸ hword direction, hvalue⟩

theorem says_editing : Says .editing tokens value ↔ ∃ token rest, ∃ entry ∈ Lexicon.editing,
    tokens = token :: rest ∧ token.kind = entry.1 ∧
      (rest = [] ∧ value = .node (.key entry.2) ∨
        ∃ number, Says .group rest (.integer number) ∧
          value = .node (.times number (.key entry.2))) := by
  have hword : ∀ entry ∈ Lexicon.editing, Lexicon.editing? entry.1 = some entry.2 := by decide
  have hwords : ∀ word ∈ Lexicon.editing.map Prod.fst, ∃ key, Lexicon.editing? word = some key := by
    intro word hmem
    obtain ⟨entry, hentry, rfl⟩ := List.mem_map.mp hmem
    exact ⟨entry.2, hword entry hentry⟩
  rw [says_counted .editing (Lexicon.editing.map Prod.fst) (by simp) rfl hwords rfl]
  constructor
  · rintro ⟨token, rest, key, rfl, hmem, hfound, hvalue⟩
    obtain ⟨entry, hentry, hspoken⟩ := List.mem_map.mp hmem
    rw [← hspoken, hword entry hentry, Option.some.injEq] at hfound
    exact ⟨token, rest, entry, hentry, rfl, hspoken.symm, hfound ▸ hvalue⟩
  · rintro ⟨token, rest, entry, hentry, rfl, hkind, hvalue⟩
    exact ⟨token, rest, entry.2, rfl, hkind ▸ List.mem_map_of_mem hentry,
      hkind ▸ hword entry hentry, hvalue⟩

theorem mem_letterWords {word : String} {letter : Char} (h : Lexicon.letter? word = some letter) :
    word ∈ Lexicon.letterWords := by
  by_contra hnot
  rw [Lexicon.letter?, if_neg (by simpa using hnot)] at h
  cases h

theorem says_letter : Says .letter tokens value ↔ ∃ token letter, tokens = [token] ∧
    Lexicon.letter? token.kind = some letter ∧ value = .node (.char letter) := by
  have hwords : ∀ word ∈ Lexicon.letterWords, (Lexicon.letter? word).isSome := by decide
  rw [says_word .letter Lexicon.letterWords rfl]
  constructor
  · rintro ⟨token, rfl, hword, hvalue⟩
    obtain ⟨letter, hletter⟩ := Option.isSome_iff_exists.mp (hwords _ hword)
    exact ⟨token, letter, rfl, hletter, hvalue.unique (Meaning.gives_letter hletter)⟩
  · rintro ⟨token, letter, rfl, hletter, rfl⟩
    exact ⟨token, rfl, mem_letterWords hletter, Meaning.gives_letter hletter⟩

theorem says_skyLetter : Says .skyLetter tokens value ↔ ∃ token rest letter,
    tokens = token :: rest ∧ token.kind = Lexicon.sky ∧ Says .letter rest (.node (.char letter)) ∧
      value = .node (.char letter.toUpper) := by
  have hgives (token : Token) (letter : Char) : Meaning.skyLetter.Gives
      [.token token, .node (.char letter)] (.node (.char letter.toUpper)) := fun _ => rfl
  rw [says_keyword .skyLetter [Lexicon.sky] .letter rfl]
  constructor
  · rintro ⟨token, rest, inner, rfl, hword, hinner, hvalue⟩
    obtain ⟨letter, rfl⟩ := hinner.shaped
    exact ⟨token, rest, letter, rfl, List.mem_singleton.mp hword, hinner,
      hvalue.unique (hgives token letter)⟩
  · rintro ⟨token, rest, letter, rfl, hword, hinner, rfl⟩
    exact ⟨token, rest, _, rfl, List.mem_singleton.mpr hword, hinner, hgives token letter⟩

theorem says_character : Says .character tokens value ↔ ∃ entry ∈ Lexicon.characters,
    tokens.map Token.kind = entry.1 ∧ value = .node (.key entry.2) := by
  -- The first word of a name tells the character.
  have hfirst : ∀ entry ∈ Lexicon.characters,
      (entry.1.head?.bind Lexicon.character?) = some entry.2 := by decide
  have hgives {entry : List String × String} (hentry : entry ∈ Lexicon.characters)
      (hkinds : tokens.map Token.kind = entry.1) :
      Meaning.character.Gives (tokens.map .token) (.node (.key entry.2)) := by
    have hkey := hfirst entry hentry
    rw [← hkinds] at hkey
    cases tokens with
    | nil => cases hkey
    | cons token rest => exact Meaning.gives_character hkey _
  rw [says_iff .character (Lexicon.characters.map fun entry => entry.1.map .terminal) rfl]
  constructor
  · rintro ⟨side, hside, arguments, hyields, hvalue⟩
    obtain ⟨entry, hentry, rfl⟩ := List.mem_map.mp hside
    obtain ⟨hkinds, rfl⟩ := Yields.terminals_iff.mp hyields
    exact ⟨entry, hentry, hkinds, hvalue.unique (hgives hentry hkinds)⟩
  · rintro ⟨entry, hentry, hkinds, rfl⟩
    exact ⟨_, List.mem_map_of_mem hentry, _, Yields.terminals_iff.mpr ⟨hkinds, rfl⟩,
      hgives hentry hkinds⟩

theorem says_held : Says .held tokens value ↔ ∃ token rest, ∃ entry ∈ Modifier.spoken, ∃ body,
    tokens = token :: rest ∧ token.kind = entry.1 ∧ Says .command rest (.node body) ∧
      value = .node (body.under entry.2) := by
  have hword : ∀ entry ∈ Modifier.spoken, Modifier.ofWord? entry.1 = some entry.2 := by
    decide
  have hgives {token : Token} {entry : String × Modifier} (hentry : entry ∈ Modifier.spoken)
      (hkind : token.kind = entry.1) (body : Action) :
      Meaning.held.Gives [.token token, .node body] (.node (body.under entry.2)) := by
    have hmodifier := hword entry hentry
    rw [← hkind] at hmodifier
    exact Meaning.gives_held hmodifier body
  rw [says_keyword .held (Modifier.spoken.map Prod.fst) .command rfl]
  constructor
  · rintro ⟨token, rest, inner, rfl, hmem, hinner, hvalue⟩
    obtain ⟨entry, hentry, hkind⟩ := List.mem_map.mp hmem
    obtain ⟨body, rfl⟩ := hinner.shaped
    exact ⟨token, rest, entry, hentry, body, rfl, hkind.symm, hinner,
      hvalue.unique (hgives hentry hkind.symm body)⟩
  · rintro ⟨token, rest, entry, hentry, body, rfl, hkind, hinner, rfl⟩
    exact ⟨token, rest, _, rfl, hkind ▸ List.mem_map_of_mem hentry, hinner,
      hgives hentry hkind body⟩

/-- A modifier before a command holds its key around the command. -/
theorem Says.under {token : Token} {modifier : Modifier}
    (hmodifier : Modifier.ofWord? token.kind = some modifier)
    (h : Says .command tokens (.node action)) :
    Says .command (token :: tokens) (.node (action.under modifier)) := by
  obtain ⟨before, after, hspoken, -⟩ := List.lookup_eq_some_iff.mp hmodifier
  have hentry : (token.kind, modifier) ∈ Modifier.spoken := hspoken ▸ List.mem_append_cons_self
  exact says_command.mpr ⟨.held, by decide,
    says_held.mpr ⟨token, tokens, _, hentry, action, rfl, rfl, h, rfl⟩⟩

theorem says_spelledWord : Says .spelledWord tokens value ↔ ∃ keyword token,
    tokens = [keyword, token] ∧ keyword.kind = Lexicon.word ∧ token.kind = Token.anyLabel ∧
      value = .node (.text token.text) := by
  have hgives (keyword token : Token) : Meaning.spelledWord.Gives
      [.token keyword, .token token] (.node (.text token.text)) := fun _ => rfl
  rw [says_iff .spelledWord [[Lexicon.word, Token.anyLabel].map .terminal] rfl]
  constructor
  · rintro ⟨side, hside, arguments, hyields, hvalue⟩
    obtain rfl := List.mem_singleton.mp hside
    obtain ⟨hkinds, rfl⟩ := Yields.terminals_iff.mp hyields
    obtain ⟨keyword, rest, rfl, hword, hrest⟩ := List.map_eq_cons_iff.mp hkinds
    obtain ⟨token, rfl, hany⟩ := List.map_eq_singleton_iff.mp hrest
    exact ⟨keyword, token, rfl, hword, hany, hvalue.unique (hgives keyword token)⟩
  · rintro ⟨keyword, token, rfl, hword, hany, rfl⟩
    refine ⟨_, List.mem_singleton_self _, _, Yields.terminals_iff.mpr ⟨?_, rfl⟩,
      hgives keyword token⟩
    rw [List.map_cons, List.map_cons, List.map_nil, hword, hany]

theorem says_rawWord : Says .rawWord tokens value ↔ ∃ token, tokens = [token] ∧
    token.kind ∈ rawFirst ∧ value = .word token.text := by
  have hgives (token : Token) : Meaning.rawWord.Gives [.token token] (.word token.text) :=
    fun _ => rfl
  rw [says_word .rawWord rawFirst rfl]
  simp only [(hgives _).iff]

/-- A run of words is its tokens' texts. -/
theorem says_wordRun : Says .wordRun tokens value ↔ tokens ≠ [] ∧
    (∀ token ∈ tokens, token.kind ∈ rawFirst) ∧
      value = .node (.words (tokens.map fun token => .word token.text)) := by
  rw [says_run .wordRun .rawWord .word
    (fun spellings : List String => .node (.words (spellings.map .word))) rfl (by decide)
    (fun _ _ h => h.shaped) (fun _ _ => rfl) (fun _ _ _ => rfl)]
  have hflatten (tokens : List Token) : (tokens.map fun token => [token]).flatten = tokens := by
    rw [← List.flatMap_def, List.flatMap_singleton']
  constructor
  · rintro ⟨pieces, spellings, hnonempty, rfl, hpieces, rfl⟩
    obtain ⟨tokens, rfl, hkinds, rfl⟩ : ∃ tokens : List Token,
        pieces = (tokens.map fun token => [token]) ∧ (∀ token ∈ tokens, token.kind ∈ rawFirst) ∧
          spellings = tokens.map Token.text := by
      clear hnonempty
      induction hpieces with
      | nil => exact ⟨[], rfl, by simp, rfl⟩
      | cons hpiece _ ih =>
          obtain ⟨token, rfl, hkind, hspelling⟩ := says_rawWord.mp hpiece
          cases hspelling
          obtain ⟨tokens, rfl, hkinds, rfl⟩ := ih
          exact ⟨token :: tokens, rfl, List.forall_mem_cons.mpr ⟨hkind, hkinds⟩, rfl⟩
    rw [hflatten, List.map_map]
    refine ⟨?_, hkinds, rfl⟩
    rintro rfl
    exact hnonempty rfl
  · rintro ⟨hnonempty, hkinds, rfl⟩
    refine ⟨tokens.map fun token => [token], tokens.map Token.text, by simpa using hnonempty,
      hflatten tokens, ?_, by rw [List.map_map]; rfl⟩
    rw [List.forall₂_map_left_iff, List.forall₂_map_right_iff, List.forall₂_same]
    exact fun token hmem => says_rawWord.mpr ⟨token, rfl, hkinds token hmem, rfl⟩

theorem says_phrase : Says .phrase tokens value ↔ ∃ keyword rest, tokens = keyword :: rest ∧
    keyword.kind = Lexicon.phrase ∧ Says .wordRun rest value := by
  have hgives (keyword : Token) (run : Action) :
      Meaning.phrase.Gives [.token keyword, .node run] (.node run) := fun _ => rfl
  rw [says_keyword .phrase [Lexicon.phrase] .wordRun rfl]
  constructor
  · rintro ⟨keyword, rest, inner, rfl, hword, hinner, hvalue⟩
    obtain ⟨words, rfl⟩ := hinner.shaped
    exact ⟨keyword, rest, rfl, List.mem_singleton.mp hword,
      hvalue.unique (hgives keyword _) ▸ hinner⟩
  · rintro ⟨keyword, rest, rfl, hword, hinner⟩
    obtain ⟨words, rfl⟩ := hinner.shaped
    exact ⟨keyword, rest, _, rfl, List.mem_singleton.mpr hword, hinner, hgives keyword _⟩

/-- A keyword and a run of words, of which the first is capitalised. -/
theorem says_capitalized (meaning : Meaning) (words : List String)
    (hreader : meaning.reader = Meaning.capitalizedRun meaning.name)
    (hplain : meaning ≠ .input ∧ meaning ≠ .tolerantInput ∧ meaning ≠ .sleepPhrase)
    (h : productions.filter (fun production => production.lhs == rule) =
      alternatives rule meaning (words.map fun word => [t word, n .wordRun])) :
    Says rule tokens value ↔ ∃ keyword first rest, tokens = keyword :: first :: rest ∧
      keyword.kind ∈ words ∧ (∀ token ∈ first :: rest, token.kind ∈ rawFirst) ∧
      value = .node (.words (.word (Text.capitalize first.text) ::
        rest.map fun token => .word token.text)) := by
  have hgives (keyword : Token) (first : String) (rest : List Action) :
      meaning.Gives [.token keyword, .node (.words (.word first :: rest))]
        (.node (.words (.word (Text.capitalize first) :: rest))) := by
    refine Meaning.gives_of_reads hplain (?_ : Reads _ _ _ [])
    rw [hreader]
    exact (Reads.skip _ _).bind ((Reads.node _ _).bind (Reads.pure _ _))
  rw [says_keyword meaning words _ h]
  constructor
  · rintro ⟨keyword, run, inner, rfl, hword, hinner, hvalue⟩
    obtain ⟨hnonempty, hkinds, rfl⟩ := says_wordRun.mp hinner
    cases run with
    | nil => exact absurd rfl hnonempty
    | cons first rest =>
        exact ⟨keyword, first, rest, rfl, hword, hkinds, hvalue.unique (hgives keyword _ _)⟩
  · rintro ⟨keyword, first, rest, rfl, hword, hkinds, rfl⟩
    exact ⟨keyword, _, _, rfl, hword,
      says_wordRun.mpr ⟨List.cons_ne_nil _ _, hkinds, rfl⟩, hgives keyword _ _⟩

end Commands

end SpokenKeys
