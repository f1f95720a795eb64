import SpokenKeys.Action.Speech
import SpokenKeys.Proofs.HeldKeys

/-!
Commands and the trees they stand for. Every phrase of a command is a command
tree, and every command tree is what its spoken words mean.
-/

namespace SpokenKeys

open Commands

namespace Action

theorem isCommand_under (modifier : Modifier) {body : Action} (h : body.isCommand = true) :
    (body.under modifier).isCommand = true := by
  cases body <;> simp_all [under, isCommand, isHold]

theorem isCommand_character {entry : List String × String} (h : entry ∈ Lexicon.characters) :
    (Action.key entry.2).isCommand = true := by
  have hmem : entry.2 ∈ Lexicon.characters.map Prod.snd := List.mem_map_of_mem h
  rw [isCommand, List.contains_iff_mem]
  exact List.mem_append_left _ hmem

theorem isRepeatable_editing {entry : String × String} (h : entry ∈ Lexicon.editing) :
    (Action.key entry.2).isRepeatable = true := by
  rw [isRepeatable, List.contains_iff_mem]
  exact List.mem_map_of_mem h

theorem isCommand_editing {entry : String × String} (h : entry ∈ Lexicon.editing) :
    (Action.key entry.2).isCommand = true := by
  have hmem : entry.2 ∈ Lexicon.editing.map Prod.snd := List.mem_map_of_mem h
  rw [isCommand, List.contains_iff_mem]
  exact List.mem_append_right _ hmem

theorem isCommand_words {items : List Action} (hnonempty : items ≠ [])
    (hwords : ∀ item ∈ items, item.isWord = true) : (Action.words items).isCommand = true := by
  rw [isCommand, Bool.and_eq_true, List.all_eq_true]
  exact ⟨by simpa using hnonempty, hwords⟩

theorem isCommand_times {number : UInt64} {body : Action} (hnumber : number.toNat ≤ 999)
    (hbody : body.isRepeatable = true) : (Action.times number body).isCommand = true := by
  have hlt : number < 1000 := UInt64.lt_iff_toNat_lt.mpr (Nat.lt_succ_of_le hnumber)
  simp [isCommand, hlt, hbody]

end Action

namespace Commands

variable {tokens : List Token} {action : Action}

theorem isAlpha_of_letter? {word : String} {letter : Char}
    (h : Lexicon.letter? word = some letter) :
    letter.isAlpha = true ∧ letter.toUpper.isAlpha = true := by
  have hletters : (Lexicon.letterWords.all fun word => (Lexicon.letter? word).all fun letter =>
      letter.isAlpha && letter.toUpper.isAlpha) = true := by decide
  have hletter := List.all_eq_true.mp hletters word (mem_letterWords h)
  rwa [h, Option.all_some, Bool.and_eq_true] at hletter

theorem le_of_says_group {number : UInt64} (h : Says .group tokens (.integer number)) :
    number.toNat ≤ 999 := by
  obtain ⟨other, hother, hle⟩ := h.shaped
  cases hother
  exact hle

/-- The value of a command is a command tree. The recursion of the grammar is in
what is said while a key is held, which are the tokens after the key's. -/
theorem isCommand_of_phrase (h : Says .command tokens (.node action)) : action.isCommand = true := by
  induction tokens generalizing action with
  | nil => exact absurd h.shortest_le (by decide)
  | cons token rest ih =>
      have hword (spelling : String) : (Action.word spelling).isWord = true := rfl
      obtain ⟨kind, hkind, h⟩ := says_command.mp h
      simp only [kinds, List.mem_cons, List.not_mem_nil, or_false] at hkind
      rcases hkind with rfl | rfl | rfl | rfl | rfl | rfl | rfl | rfl | rfl | rfl | rfl
      · obtain ⟨_, letter, -, hletter, hvalue⟩ := says_letter.mp h
        cases hvalue
        exact (isAlpha_of_letter? hletter).1
      · obtain ⟨_, _, letter, -, -, hinner, hvalue⟩ := says_skyLetter.mp h
        obtain ⟨_, _, -, hletter, hchar⟩ := says_letter.mp hinner
        cases hvalue
        cases hchar
        exact (isAlpha_of_letter? hletter).2
      · obtain ⟨_, _, _, -, size, -, -, -, hvalue⟩ := says_number.mp h
        cases hvalue
        rfl
      · obtain ⟨_, _, direction, -, -, ⟨-, hvalue⟩ | ⟨number, hgroup, hvalue⟩⟩ :=
          says_movement.mp h
        · cases hvalue
          rfl
        · cases hvalue
          exact Action.isCommand_times (le_of_says_group hgroup) rfl
      · obtain ⟨entry, hentry, -, hvalue⟩ := says_character.mp h
        cases hvalue
        exact Action.isCommand_character hentry
      · obtain ⟨_, _, entry, hentry, -, -, ⟨-, hvalue⟩ | ⟨number, hgroup, hvalue⟩⟩ :=
          says_editing.mp h
        · cases hvalue
          exact Action.isCommand_editing hentry
        · cases hvalue
          exact Action.isCommand_times (le_of_says_group hgroup)
            (Action.isRepeatable_editing hentry)
      · obtain ⟨_, _, entry, -, body, htokens, -, hbody, hvalue⟩ := says_held.mp h
        cases htokens
        cases hvalue
        exact Action.isCommand_under entry.2 (ih hbody)
      · obtain ⟨_, _, -, -, -, hvalue⟩ := says_spelledWord.mp h
        cases hvalue
        rfl
      · obtain ⟨_, first, rest, -, -, -, hvalue⟩ := (says_capitalized .sentence [Lexicon.sentence]
          rfl (by simp) rfl).mp h
        cases hvalue
        exact Action.isCommand_words (List.cons_ne_nil _ _) (by simp [hword])
      · obtain ⟨_, first, rest, -, -, -, hvalue⟩ := (says_capitalized .identifier
          [Lexicon.variable] rfl (by simp) rfl).mp h
        cases hvalue
        exact Action.isCommand_words (List.cons_ne_nil _ _) (by simp [hword])
      · obtain ⟨_, run, -, -, hrun⟩ := says_phrase.mp h
        obtain ⟨hnonempty, -, hvalue⟩ := says_wordRun.mp hrun
        cases hvalue
        exact Action.isCommand_words (by simpa using hnonempty) (by simp [hword])

end Commands

namespace Action

/-- The token is the word, or has its spelling as free text. -/
def Spoken.SaidBy : Spoken → Token → Prop
  | .known label, token => token.kind = label
  | .free spelling, token => token.kind = Token.anyLabel ∧ token.text = spelling

variable {tokens : List Token}

theorem Spoken.known_saidBy_iff {labels : List String} :
    List.Forall₂ Spoken.SaidBy (labels.map .known) tokens ↔ tokens.map Token.kind = labels := by
  rw [List.forall₂_map_left_iff]
  constructor
  · intro h
    induction h with
    | nil => rfl
    | cons hkind _ ih => rw [List.map_cons, ih, show _ = _ from hkind]
  · rintro rfl
    rw [List.forall₂_map_left_iff, List.forall₂_same]
    exact fun _ _ => rfl

theorem Spoken.free_saidBy {spellings : List String}
    (h : List.Forall₂ Spoken.SaidBy (spellings.map .free) tokens) :
    (∀ token ∈ tokens, token.kind = Token.anyLabel) ∧ tokens.map Token.text = spellings := by
  rw [List.forall₂_map_left_iff] at h
  induction h with
  | nil => exact ⟨by simp, rfl⟩
  | cons hfirst _ ih =>
      obtain ⟨hkind, htext⟩ := hfirst
      obtain ⟨hkinds, htexts⟩ := ih
      exact ⟨List.forall_mem_cons.mpr ⟨hkind, hkinds⟩, by rw [List.map_cons, htext, htexts]⟩

/-- A stream is the tokens of the words, one for each, and the closing marker. -/
theorem exists_tokens_of_streamOf (words : List Spoken) :
    ∃ tokens closing, (streamOf words).tokens = tokens ++ [closing] ∧
      closing.kind = Token.endLabel ∧ List.Forall₂ Spoken.SaidBy words tokens := by
  have hsay : ∀ (words : List Spoken) (stream : TokenStream), ∃ tokens,
      (words.foldl say stream).tokens = stream.tokens ++ tokens ∧
        List.Forall₂ Spoken.SaidBy words tokens := by
    intro words
    induction words with
    | nil => exact fun stream => ⟨[], (List.append_nil _).symm, .nil⟩
    | cons word words ih =>
        intro stream
        obtain ⟨token, htoken, hsaid⟩ : ∃ token, (say stream word).tokens =
            stream.tokens ++ [token] ∧ word.SaidBy token := by
          cases word with
          | known label => exact ⟨_, rfl, rfl⟩
          | free spelling => exact ⟨_, rfl, rfl, rfl⟩
        obtain ⟨tokens, htokens, hwords⟩ := ih (say stream word)
        refine ⟨token :: tokens, ?_, .cons hsaid hwords⟩
        rw [List.foldl_cons, htokens, htoken, List.append_assoc, List.singleton_append]
  obtain ⟨tokens, htokens, hwords⟩ := hsay words {}
  refine ⟨tokens, .closing (words.foldl say {}).length, ?_, rfl, hwords⟩
  rw [streamOf, TokenStream.close, htokens]
  rfl

/-- A letter is one of the 26 places after the first of its case. -/
theorem exists_place {letter : Char} {first : Nat}
    (h : first ≤ letter.toNat ∧ letter.toNat ≤ first + 25) :
    ∃ place < 26, letter = Char.ofNat (first + place) := by
  refine ⟨letter.toNat - first, by omega, ?_⟩
  rw [show first + (letter.toNat - first) = letter.toNat by omega, Char.ofNat_toNat]

theorem letter?_codeword {letter : Char} (h : letter.isLower = true) :
    Lexicon.letter? (codeword letter) = some letter := by
  have hall : ∀ place < 26, Lexicon.letter? (codeword (Char.ofNat (97 + place))) =
      some (Char.ofNat (97 + place)) := by decide
  have hrange : (decide (letter.val ≥ 97) && decide (letter.val ≤ 122)) = true := h
  obtain ⟨place, hlt, rfl⟩ : ∃ place < 26, letter = Char.ofNat (97 + place) :=
    exists_place (by simpa [UInt32.le_iff_toNat_le] using hrange)
  exact hall place hlt

theorem toUpper_toLower {letter : Char} (h : letter.isUpper = true) :
    letter.toLower.isLower = true ∧ letter.toLower.toUpper = letter := by
  have hall : ∀ place < 26, (Char.ofNat (65 + place)).toLower.isLower = true ∧
      (Char.ofNat (65 + place)).toLower.toUpper = Char.ofNat (65 + place) := by decide
  have hrange : decide (letter.val ≥ 65 ∧ letter.val ≤ 90) = true := h
  obtain ⟨place, hlt, rfl⟩ : ∃ place < 26, letter = Char.ofNat (65 + place) :=
    exists_place (by simpa [UInt32.le_iff_toNat_le] using hrange)
  exact hall place hlt

theorem says_codeword {letter : Char} {token : Token} (h : letter.isLower = true)
    (hkind : token.kind = codeword letter) : Says .letter [token] (.node (.char letter)) :=
  says_letter.mpr ⟨token, letter, rfl, hkind ▸ letter?_codeword h, rfl⟩

theorem says_char {letter : Char} (h : letter.isAlpha = true)
    (hsaid : List.Forall₂ Spoken.SaidBy (spoken (.char letter)) tokens) :
    Says .command tokens (.node (.char letter)) := by
  rw [spoken] at hsaid
  split at hsaid
  next hupper =>
    obtain ⟨hlower, hback⟩ := toUpper_toLower hupper
    simp only [List.forall₂_cons_left_iff, List.forall₂_nil_left_iff] at hsaid
    obtain ⟨sky, _, hsky, ⟨token, _, hkind, rfl, rfl⟩, rfl⟩ := hsaid
    refine says_command.mpr ⟨.skyLetter, by decide, says_skyLetter.mpr ?_⟩
    exact ⟨sky, [token], letter.toLower, rfl, hsky, says_codeword hlower hkind, by rw [hback]⟩
  next hnot =>
    have hlower : letter.isLower = true := by
      have hcase : (letter.isUpper || letter.isLower) = true := h
      rw [Bool.or_eq_true] at hcase
      exact hcase.resolve_left hnot
    simp only [List.forall₂_cons_left_iff, List.forall₂_nil_left_iff] at hsaid
    obtain ⟨token, _, hkind, rfl, rfl⟩ := hsaid
    exact says_command.mpr ⟨.letter, by decide, says_codeword hlower hkind⟩

/-- The words of a key are a character's name or an editing word. -/
theorem keyWords_cases {name : String} (h : name ∈ keyNames) :
    (∃ entry ∈ Lexicon.characters, entry.2 = name ∧ keyWords name = entry.1) ∨
      ∃ entry ∈ Lexicon.editing, entry.2 = name ∧ keyWords name = [entry.1] := by
  have hall : ∀ name ∈ keyNames,
      (∃ entry ∈ Lexicon.characters, entry.2 = name ∧ keyWords name = entry.1) ∨
        ∃ entry ∈ Lexicon.editing, entry.2 = name ∧ keyWords name = [entry.1] := by
    decide
  exact hall name h

theorem says_key {name : String} (h : name ∈ keyNames)
    (hkinds : tokens.map Token.kind = keyWords name) : Says .command tokens (.node (.key name)) := by
  rcases keyWords_cases h with ⟨entry, hentry, rfl, hwords⟩ | ⟨entry, hentry, rfl, hwords⟩
  · rw [hwords] at hkinds
    exact says_command.mpr ⟨.character, by decide, says_character.mpr ⟨entry, hentry, hkinds, rfl⟩⟩
  · rw [hwords] at hkinds
    obtain ⟨token, rfl, hkind⟩ := List.map_eq_singleton_iff.mp hkinds
    exact says_command.mpr ⟨.editing, by decide, says_editing.mpr
      ⟨token, [], entry, hentry, rfl, hkind, .inl ⟨rfl, rfl⟩⟩⟩

/-- What may be repeated is said in one word, which the number follows. -/
theorem says_times {number : UInt64} {body : Action} (hnumber : number < 1000)
    (hbody : body.isRepeatable = true)
    (hsaid : List.Forall₂ Spoken.SaidBy (spoken (.times number body)) tokens) :
    Says .command tokens (.node (.times number body)) := by
  have hgroup {rest : List Token} (hrest : List.Forall₂ Spoken.SaidBy
      ((Numeral.spell number.toNat).map .known) rest) : Says .group rest (.integer number) := by
    have hphrase := says_group_of_spell (UInt64.lt_iff_toNat_lt.mp hnumber)
      (Spoken.known_saidBy_iff.mp hrest)
    rwa [UInt64.ofNat_toNat] at hphrase
  cases body with
  | move direction =>
      obtain ⟨token, rest, hkind, hrest, rfl⟩ := List.forall₂_cons_left_iff.mp hsaid
      exact says_command.mpr ⟨.movement, by decide, says_movement.mpr
        ⟨token, rest, direction, rfl, hkind, .inr ⟨number, hgroup hrest, rfl⟩⟩⟩
  | key name =>
      have hediting : ∀ name ∈ Lexicon.editing.map Prod.snd,
          ∃ entry ∈ Lexicon.editing, entry.2 = name ∧ keyWords name = [entry.1] := by
        decide
      obtain ⟨entry, hentry, rfl, hwords⟩ := hediting name (List.contains_iff_mem.mp hbody)
      rw [spoken, spoken, hwords] at hsaid
      obtain ⟨token, rest, hkind, hrest, rfl⟩ := List.forall₂_cons_left_iff.mp hsaid
      exact says_command.mpr ⟨.editing, by decide, says_editing.mpr
        ⟨token, rest, entry, hentry, rfl, hkind, .inr ⟨number, hgroup hrest, rfl⟩⟩⟩
  | _ => cases hbody

theorem says_words {items : List Action} (hnonempty : items ≠ [])
    (hitems : ∀ item ∈ items, item.isWord = true)
    (hsaid : List.Forall₂ Spoken.SaidBy (spoken (.words items)) tokens) :
    Says .command tokens (.node (.words items)) := by
  have hspellings : items = (items.filterMap spelling?).map .word := by
    clear hnonempty hsaid
    induction items with
    | nil => rfl
    | cons item items ih =>
        obtain ⟨hitem, hrest⟩ := List.forall_mem_cons.mp hitems
        cases item with
        | word spelling => exact congrArg (Action.word spelling :: ·) (ih hrest)
        | _ => cases hitem
  obtain ⟨keyword, rest, hkind, hrest, rfl⟩ := List.forall₂_cons_left_iff.mp hsaid
  obtain ⟨hkinds, htexts⟩ := Spoken.free_saidBy hrest
  refine says_command.mpr ⟨.phrase, by decide, says_phrase.mpr ⟨keyword, rest, rfl, hkind, ?_⟩⟩
  refine says_wordRun.mpr ⟨?_, ?_, ?_⟩
  · rintro rfl
    rw [← htexts] at hspellings
    exact hnonempty hspellings
  · intro token hmem
    rw [hkinds token hmem]
    exact List.mem_cons_self
  · rw [hspellings, ← htexts, List.map_map]
    rfl

/-- Keys are held around a command that holds none itself. -/
theorem says_hold {modifiers : List Modifier} {body : Action} (hnonempty : modifiers ≠ [])
    (hbody : body.isHold = false)
    (hphrase : ∀ tokens, List.Forall₂ Spoken.SaidBy body.spoken tokens →
      Says .command tokens (.node body))
    (hsaid : List.Forall₂ Spoken.SaidBy (spoken (.hold modifiers body)) tokens) :
    Says .command tokens (.node (.hold modifiers body)) := by
  have hword (modifier : Modifier) : Modifier.ofWord? (modifierWord modifier) = some modifier := by
    cases modifier <;> decide
  have hholding : body.holding modifiers = .hold modifiers body := by
    cases body with
    | hold => cases hbody
    | _ => rfl
  rw [spoken] at hsaid
  obtain ⟨words, rest, rfl, hfront, hback⟩ := exists_append_of_forall₂ hsaid
  have hwords : Modifier.Named words modifiers :=
    (List.forall₂_map_left_iff.mp hfront).flip.imp fun token modifier hkind =>
      (congrArg _ hkind).trans (hword modifier)
  have hsome : words ≠ [] := by
    rintro rfl
    cases hwords
    exact hnonempty rfl
  rw [← hholding]
  exact (hphrase rest hback).holding hwords hsome

/-- A command tree is what its words say. -/
theorem says_spoken : ∀ (action : Action) (tokens : List Token), action.isCommand = true →
    List.Forall₂ Spoken.SaidBy action.spoken tokens → Says .command tokens (.node action)
  | .char letter, _, hcommand, hsaid => says_char hcommand hsaid
  | .move direction, tokens, _, hsaid => by
      obtain ⟨token, _, hkind, ⟨⟩, rfl⟩ := List.forall₂_cons_left_iff.mp hsaid
      exact says_command.mpr ⟨.movement, by decide, says_movement.mpr
        ⟨token, [], direction, rfl, hkind, .inl ⟨rfl, rfl⟩⟩⟩
  | .key name, _, hcommand, hsaid =>
      says_key (List.contains_iff_mem.mp hcommand) (Spoken.known_saidBy_iff.mp hsaid)
  | .times count body, _, hcommand, hsaid => by
      rw [isCommand, Bool.and_eq_true, decide_eq_true_eq] at hcommand
      exact says_times hcommand.1 hcommand.2 hsaid
  | .text content, tokens, _, hsaid => by
      obtain ⟨keyword, _, hword, hrest, rfl⟩ := List.forall₂_cons_left_iff.mp hsaid
      obtain ⟨token, _, ⟨hany, htext⟩, ⟨⟩, rfl⟩ := List.forall₂_cons_left_iff.mp hrest
      exact says_command.mpr ⟨.spelledWord, by decide, says_spelledWord.mpr
        ⟨keyword, token, rfl, hword, hany, by rw [htext]⟩⟩
  | .words items, _, hcommand, hsaid => by
      rw [isCommand, Bool.and_eq_true, List.all_eq_true] at hcommand
      exact says_words (by simpa using hcommand.1) hcommand.2 hsaid
  | .hold modifiers body, _, hcommand, hsaid => by
      rw [isCommand, Bool.and_eq_true, Bool.and_eq_true, Bool.not_eq_true'] at hcommand
      obtain ⟨⟨hmodifiers, hbody⟩, hnot⟩ := hcommand
      exact says_hold (by simpa using hmodifiers) (by simpa using hnot)
        (fun tokens => says_spoken body tokens hbody) hsaid

/-- Command trees one after the other are what their words say. -/
theorem says_utterance {commands : List Action} (hnonempty : commands ≠ [])
    (hcommands : ∀ command ∈ commands, command.isCommand = true)
    (hsaid : List.Forall₂ Spoken.SaidBy (commands.flatMap spoken) tokens) :
    Says .commands tokens (.node (.chain commands)) := by
  obtain ⟨pieces, hflatten, hpieces⟩ : ∃ pieces : List (List Token), pieces.flatten = tokens ∧
      List.Forall₂ (fun piece command => Says .command piece (.node command)) pieces commands := by
    clear hnonempty
    induction commands generalizing tokens with
    | nil =>
        obtain rfl := List.forall₂_nil_left_iff.mp hsaid
        exact ⟨[], rfl, .nil⟩
    | cons command commands ih =>
        rw [List.flatMap_cons] at hsaid
        obtain ⟨hfirst, hrest⟩ := List.forall_mem_cons.mp hcommands
        obtain ⟨front, back, rfl, hfront, hback⟩ := exists_append_of_forall₂ hsaid
        obtain ⟨pieces, rfl, hpieces⟩ := ih hrest hback
        exact ⟨front :: pieces, List.flatten_cons,
          .cons (says_spoken command front hfirst hfront) hpieces⟩
  refine says_commands.mpr ⟨pieces, commands, ?_, hflatten, hpieces, rfl⟩
  rintro rfl
  cases hpieces
  exact hnonempty rfl

end Action

end SpokenKeys
