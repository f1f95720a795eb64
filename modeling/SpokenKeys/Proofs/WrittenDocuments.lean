import SpokenKeys.Json.Printer
import SpokenKeys.Proofs.ReadDocuments

/-!
Written documents are spelled by the grammar. Each part of the written form, a
text with its escapes, a number, the items of a list and the members of an object,
spells what it is written for, and so a document whose numbers are whole is
determined by what is written for it.
-/

namespace SpokenKeys.Json

variable {c : Char} {n : Nat}

/-! ## Texts -/

/-- A character that needs no escape stands for itself, and each of the others is escaped. -/
theorem spellsChar_escape (c : Char) : SpellsChar c (escape c) := by
  unfold escape
  split
  case h_8 hquote hbackslash _ _ _ _ _ =>
    split
    next hcontrol =>
      have hdigit : ∀ n < 16, IsHexDigit n (hexDigit n) := fun n hn => ⟨hn, .inl rfl⟩
      refine .unit ⟨[0, 0, c.toNat / 16, c.toNat % 16], ?_, rfl, ?_⟩
      · exact .cons (hdigit 0 (by omega)) (.cons (hdigit 0 (by omega))
          (.cons (hdigit _ (by omega)) (.cons (hdigit _ (by omega)) .nil)))
      · simp only [List.foldl_cons, List.foldl_nil]
        omega
    next hplain => exact .plain hquote hbackslash (Nat.not_lt.mp hplain)
  all_goals exact .short (by decide)

theorem spellsChars_escape (content : List Char) :
    SpellsChars content (content.flatMap escape) := by
  induction content with
  | nil => exact .nil
  | cons c content ih => exact .cons (spellsChar_escape c) ih

theorem spellsText_quote (content : String) : SpellsText content (quote content.toList) :=
  ⟨_, spellsChars_escape content.toList, rfl⟩

/-! ## Numbers -/

theorem isDigit_of_mem_digits (h : c ∈ digits n) : c.isDigit = true :=
  Nat.isDigit_of_mem_toDigits (by omega) (by omega) h

theorem isDigits_digits (n : Nat) : IsDigits (digits n) :=
  ⟨Nat.toDigits_ne_nil, fun _ hc => isDigit_of_mem_digits hc⟩

/-- Only zero is written with a zero in front. -/
theorem head_digits_of_pos (h : 0 < n) : (digits n).head? ≠ some '0' := by
  induction n using Nat.strongRecOn with
  | ind n ih =>
      by_cases hsmall : n < 10
      · have hchar : ∀ n < 10, 0 < n → n.digitChar ≠ '0' := by decide
        rw [digits, Nat.toDigits_of_lt_base hsmall]
        simpa using hchar n hsmall h
      · have hfront := ih (n / 10) (by omega) (by omega)
        rw [digits] at hfront ⊢
        rw [Nat.toDigits_of_base_le (by omega) (by omega)]
        rwa [List.head?_append, Option.or_of_isSome]
        rw [List.isSome_head?]
        simp

theorem leads_digits (n : Nat) : (digits n).head? = some '0' → digits n = ['0'] := by
  intro hzero
  by_cases hpos : 0 < n
  · exact absurd hzero (head_digits_of_pos hpos)
  · obtain rfl : n = 0 := by omega
    rfl

/-- A whole number with its sign, as a number of the grammar. -/
def wholeText (negative : Bool) (size : Nat) : NumberText where
  negative := negative
  digits := digits size
  decimals := []
  exponent := []
  isDigits := isDigits_digits size
  leads := leads_digits size
  isDecimals := .inl rfl
  isExponent := .inl rfl

theorem exists_wholeText (value : Int) :
    ∃ number : NumberText, number.document = .whole value ∧ wholeChars value = number.chars := by
  have hsize (n : Nat) : Nat.ofDigitChars 10 (digits n) 0 = n := Nat.ofDigitChars_ten_toDigits
  cases value with
  | ofNat n =>
      refine ⟨wholeText false n, ?_, ?_⟩
      · simp [NumberText.document, NumberText.whole?, wholeText, hsize]
      · simp [wholeChars, NumberText.chars, NumberText.sign, wholeText]
  | negSucc n =>
      refine ⟨wholeText true (n + 1), ?_, ?_⟩
      · simp [NumberText.document, NumberText.whole?, wholeText, hsize, Int.negSucc_eq]
      · simp [wholeChars, NumberText.chars, NumberText.sign, wholeText]

/-! ## Documents -/

mutual

/-- Whether every number in a document is whole. -/
def isWhole : Json → Bool
  | .fraction _ => false
  | .list items => areWhole items
  | .object members => holdWhole members
  | .null | .bool _ | .whole _ | .text _ => true
termination_by structural document => document

def areWhole : List Json → Bool
  | [] => true
  | item :: rest => isWhole item && areWhole rest
termination_by structural items => items

/-- Whether every number in the values of several members is whole. -/
def holdWhole : List (String × Json) → Bool
  | [] => true
  | member :: rest => holdsWhole member && holdWhole rest
termination_by structural members => members

def holdsWhole : String × Json → Bool
  | (_, value) => isWhole value
termination_by structural member => member

end

theorem padded {spells : List Char → Prop} {text : List Char} (h : spells text) :
    Padded spells text :=
  ⟨[], text, [], by simp [IsBlank], h, by simp [IsBlank], by simp⟩

mutual

/-- What is written for a document spells it. -/
theorem spellsValue_chars (document : Json) (h : document.isWhole = true) :
    SpellsValue document document.chars := by
  match document with
  | .null | .bool true | .bool false =>
    rw [chars, SpellsValue]
    rfl
  | .fraction spelling => simp [isWhole] at h
  | .whole value =>
    rw [chars, SpellsValue]
    exact exists_wholeText value
  | .text content =>
    rw [chars, SpellsValue]
    exact spellsText_quote content
  | .list [] =>
    rw [chars, SpellsValue]
    exact ⟨[], by simp [SpellsItems, IsBlank], rfl⟩
  | .list (item :: more) =>
    rw [isWhole, areWhole, Bool.and_eq_true] at h
    obtain ⟨inner, hchars, hinner⟩ := spellsMoreItems_chars more h.2
    rw [chars, SpellsValue]
    refine ⟨item.chars ++ inner, ?_, ?_⟩
    · rw [SpellsItems]
      exact ⟨_, _, padded (spellsValue_chars item h.1), hinner, rfl⟩
    · rw [itemsChars, hchars, List.append_assoc]
  | .object [] =>
    rw [chars, SpellsValue]
    exact ⟨[], by simp [SpellsMembers, IsBlank], rfl⟩
  | .object (member :: more) =>
    rw [isWhole, holdWhole, Bool.and_eq_true] at h
    obtain ⟨inner, hchars, hinner⟩ := spellsMoreMembers_chars more h.2
    rw [chars, SpellsValue]
    refine ⟨memberChars member ++ inner, ?_, ?_⟩
    · rw [SpellsMembers]
      exact ⟨_, _, spellsMember_chars member h.1, hinner, rfl⟩
    · rw [membersChars, hchars, List.append_assoc]

/-- What is written for the items after the first spells them, up to the closing
bracket. -/
theorem spellsMoreItems_chars (more : List Json) (h : areWhole more = true) :
    ∃ inner, moreItemsChars more = inner ++ [']'] ∧ SpellsMoreItems more inner := by
  match more with
  | [] => exact ⟨[], by rw [moreItemsChars]; rfl, by rw [SpellsMoreItems]⟩
  | item :: rest =>
    rw [areWhole, Bool.and_eq_true] at h
    obtain ⟨inner, hchars, hinner⟩ := spellsMoreItems_chars rest h.2
    refine ⟨',' :: (item.chars ++ inner), ?_, ?_⟩
    · rw [moreItemsChars, hchars]
      simp
    · rw [SpellsMoreItems]
      exact ⟨_, _, padded (spellsValue_chars item h.1), hinner, rfl⟩

theorem spellsMoreMembers_chars (more : List (String × Json)) (h : holdWhole more = true) :
    ∃ inner, moreMembersChars more = inner ++ ['}'] ∧ SpellsMoreMembers more inner := by
  match more with
  | [] => exact ⟨[], by rw [moreMembersChars]; rfl, by rw [SpellsMoreMembers]⟩
  | member :: rest =>
    rw [holdWhole, Bool.and_eq_true] at h
    obtain ⟨inner, hchars, hinner⟩ := spellsMoreMembers_chars rest h.2
    refine ⟨',' :: (memberChars member ++ inner), ?_, ?_⟩
    · rw [moreMembersChars, hchars]
      simp
    · rw [SpellsMoreMembers]
      exact ⟨_, _, spellsMember_chars member h.1, hinner, rfl⟩

theorem spellsMember_chars (member : String × Json) (h : holdsWhole member = true) :
    SpellsMember member (memberChars member) := by
  match member with
  | (name, value) =>
    rw [holdsWhole] at h
    rw [SpellsMember, memberChars]
    exact ⟨_, _, padded (spellsText_quote name), padded (spellsValue_chars value h), rfl⟩

end

/-- What is written for a document with whole numbers only spells it. -/
theorem spells_print {document : Json} (h : document.isWhole = true) :
    document.Spells document.print := by
  rw [Spells, print, String.toList_ofList]
  exact padded (spellsValue_chars document h)

theorem parse?_print {document : Json} (h : document.isWhole = true) :
    parse? document.print = some document :=
  parse?_of_spells (spells_print h)

end SpokenKeys.Json
