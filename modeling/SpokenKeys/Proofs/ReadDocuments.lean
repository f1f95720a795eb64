import SpokenKeys.Json.Grammar
import SpokenKeys.Json.Reader

/-!
Every JSON text is read. Whatever the grammar lets spell a document, with blanks
around its marks and escapes for its characters, is read to its end and as that
document, so a text spells one document at most.
-/

namespace SpokenKeys.Json

variable {c : Char} {content inner front body rest digits : List Char} {fuel n : Nat}

theorem isSpace_iff : isSpace c = true ↔ c = ' ' ∨ c = '\t' ∨ c = '\n' ∨ c = '\r' := by
  simp [isSpace, or_assoc]

theorem skipSpace_blank (h : IsBlank front) (rest : List Char) :
    skipSpace (front ++ rest) = skipSpace rest :=
  List.dropWhile_append_of_pos fun c hc => isSpace_iff.mpr (h c hc)

theorem skipSpace_cons (h : isSpace c = false) (rest : List Char) :
    skipSpace (c :: rest) = c :: rest := by
  simp [skipSpace, h]

/-! ## Texts -/

theorem hexValue?_of_isHexDigit (h : IsHexDigit n c) : Text.hexValue? c = some n := by
  obtain ⟨hn, hc⟩ := h
  have hdigits : ∀ n < 16, Text.hexValue? (Nat.digitChar n) = some n ∧
      Text.hexValue? (Nat.digitChar n).toUpper = some n := by
    decide
  rcases hc with rfl | rfl
  · exact (hdigits n hn).1
  · exact (hdigits n hn).2

/-- Four digits are read as their number, whatever follows them. -/
theorem hex4?_of_isHexUnit (h : IsHexUnit n digits) (rest : List Char) :
    hex4? (digits ++ rest) = some (n, rest) := by
  obtain ⟨values, hvalues, hlength, rfl⟩ := h
  match values, digits, hvalues, hlength with
  | [_, _, _, _], [_, _, _, _], .cons ha (.cons hb (.cons hc (.cons hd .nil))), _ =>
      simp [hex4?, Text.hexNumber?, hexValue?_of_isHexDigit ha, hexValue?_of_isHexDigit hb,
        hexValue?_of_isHexDigit hc, hexValue?_of_isHexDigit hd, Nat.mul_comm]

theorem unicodeEscape?_unit (h : IsHexUnit c.toNat digits) (rest : List Char) :
    unicodeEscape? (digits ++ rest) = some (c, rest) := by
  have hvalid : c.toNat < 0xD800 ∨ (0xDFFF < c.toNat ∧ c.toNat < 0x110000) := c.valid
  have hunit : ¬ (0xD800 ≤ c.toNat ∧ c.toNat < 0xDC00) := by omega
  have hscalar : c.toNat < 0xD800 ∨ (0xE000 ≤ c.toNat ∧ c.toNat < 0x110000) := by omega
  simp [unicodeEscape?, hex4?_of_isHexUnit h, hunit, Text.scalar?, hscalar, Char.ofNat_toNat]

theorem unicodeEscape?_pair {high low : Nat} {first second : List Char}
    (hfirst : IsHexUnit high first) (hsecond : IsHexUnit low second)
    (hhigh : 0xD800 ≤ high ∧ high < 0xDC00) (hlow : 0xDC00 ≤ low ∧ low < 0xE000)
    (hvalue : c.toNat = 0x10000 + (high - 0xD800) * 0x400 + (low - 0xDC00)) (rest : List Char) :
    unicodeEscape? (first ++ '\\' :: 'u' :: (second ++ rest)) = some (c, rest) := by
  simp [unicodeEscape?, hex4?_of_isHexUnit hfirst, hex4?_of_isHexUnit hsecond, hhigh, hlow,
    ← hvalue, Char.ofNat_toNat]

theorem unescape?_short {letter : Char} (h : (letter, c) ∈ shortEscapes) (rest : List Char) :
    unescape? (letter :: rest) = some (c, rest) := by
  simp only [shortEscapes, List.mem_cons, Prod.mk.injEq, List.not_mem_nil, or_false] at h
  rcases h with ⟨rfl, rfl⟩ | ⟨rfl, rfl⟩ | ⟨rfl, rfl⟩ | ⟨rfl, rfl⟩ | ⟨rfl, rfl⟩ | ⟨rfl, rfl⟩ |
    ⟨rfl, rfl⟩ | ⟨rfl, rfl⟩ <;> rfl

/-- A character stands for itself, or a backslash and what follows it are read as the
character. -/
theorem SpellsChar.cases_escaped (h : SpellsChar c front) :
    (front = [c] ∧ c ≠ '"' ∧ c ≠ '\\' ∧ 0x20 ≤ c.toNat) ∨
    ∃ escaped, front = '\\' :: escaped ∧
      ∀ rest, unescape? (escaped ++ rest) = some (c, rest) := by
  cases h with
  | plain hquote hbackslash hcontrol => exact .inl ⟨rfl, hquote, hbackslash, hcontrol⟩
  | short hmem => exact .inr ⟨_, rfl, unescape?_short hmem⟩
  | unit hunit => exact .inr ⟨_, rfl, unicodeEscape?_unit hunit⟩
  | pair hfirst hsecond hhigh hlow hvalue =>
      refine .inr ⟨_, rfl, fun rest => ?_⟩
      have hread := unicodeEscape?_pair hfirst hsecond hhigh hlow hvalue rest
      simpa [unescape?] using hread

theorem readText_char (h : SpellsChar c front) (fuel : Nat) (rest : List Char) :
    readText (fuel + 1) (front ++ rest) =
      (readText fuel rest).map fun found => (c :: found.1, found.2) := by
  rcases h.cases_escaped with ⟨rfl, hquote, hbackslash, hcontrol⟩ | ⟨escaped, rfl, hread⟩
  · have hlow : ¬ c.toNat < 0x20 := by omega
    rw [List.singleton_append, readText]
    · cases readText fuel rest <;> simp [hlow]
    · exact hquote
    · exact hbackslash
  · rw [List.cons_append, readText, hread]
    simp only [Option.bind_eq_bind, Option.bind_some]
    cases readText fuel rest <;> rfl

/-- A text is read up to its closing quote. -/
theorem readText_chars (h : SpellsChars content inner) (hfuel : content.length < fuel)
    (rest : List Char) : readText fuel (inner ++ '"' :: rest) = some (content, rest) := by
  induction h generalizing fuel with
  | nil =>
      obtain ⟨fuel, rfl⟩ := Nat.exists_eq_add_of_lt hfuel
      simp [readText]
  | cons hc hcontent ih =>
      cases fuel with
      | zero => simp at hfuel
      | succ fuel =>
          rw [List.append_assoc, readText_char hc, ih (by simpa using hfuel)]
          rfl

theorem SpellsChars.length_le (h : SpellsChars content inner) :
    content.length ≤ inner.length := by
  induction h with
  | nil => exact Nat.le_refl _
  | @cons c content front back hc hcontent ih =>
      have hpos : 0 < front.length := by
        rcases hc.cases_escaped with ⟨rfl, -⟩ | ⟨escaped, rfl, -⟩ <;> simp
      simp only [List.length_cons, List.length_append]
      omega

/-- The length of a text with its quotes is fuel enough to read it. -/
theorem readText_of_spells {content : String} {text : List Char} (h : SpellsText content text)
    (hfuel : text.length ≤ fuel + 1) (rest : List Char) :
    ∃ opened, text ++ rest = '"' :: opened ∧
      readText fuel opened = some (content.toList, rest) := by
  obtain ⟨inner, hinner, rfl⟩ := h
  have hlength := hinner.length_le
  simp only [List.length_cons, List.length_append, List.length_nil] at hfuel
  refine ⟨inner ++ '"' :: rest, by simp, ?_⟩
  apply readText_chars hinner
  omega

/-! ## Numbers -/

/-- What may follow a document: nothing, a blank, or what goes on in a list or an
object. -/
def IsBoundary (rest : List Char) : Prop :=
  ∀ c ∈ rest.head?, isSpace c = true ∨ c = ',' ∨ c = ']' ∨ c = '}'

theorem isBoundary_nil : IsBoundary [] := by simp [IsBoundary]

theorem isBoundary_cons (h : isSpace c = true ∨ c = ',' ∨ c = ']' ∨ c = '}')
    (rest : List Char) : IsBoundary (c :: rest) := by
  simpa [IsBoundary] using h

theorem isBoundary_blank (h : IsBlank front) (hrest : IsBoundary rest) :
    IsBoundary (front ++ rest) := by
  cases front with
  | nil => exact hrest
  | cons c front => exact isBoundary_cons (.inl (isSpace_iff.mpr (h c (by simp)))) _

/-- No part of a number begins at a boundary. -/
theorem IsBoundary.not_number (h : IsBoundary rest) :
    ∀ c ∈ rest.head?, c.isDigit = false ∧ c ≠ '.' ∧ c ≠ 'e' ∧ c ≠ 'E' := by
  intro c hc
  have hbound := h c hc
  rw [isSpace_iff] at hbound
  rcases hbound with (rfl | rfl | rfl | rfl) | rfl | rfl | rfl <;> decide

theorem span_digits (h : ∀ c ∈ digits, c.isDigit = true)
    (hrest : ∀ c ∈ rest.head?, c.isDigit = false) :
    (digits ++ rest).takeWhile Char.isDigit = digits ∧
      (digits ++ rest).dropWhile Char.isDigit = rest := by
  rw [List.takeWhile_append_of_pos h, List.dropWhile_append_of_pos h]
  cases rest with
  | nil => simp
  | cons c rest => simp [hrest c rfl]

theorem isPlainDigits_of_leads (h : digits ≠ [])
    (hleads : digits.head? = some '0' → digits = ['0']) : isPlainDigits digits = true := by
  unfold isPlainDigits
  split <;> simp_all

namespace NumberText

/-- What follows the decimals of a number neither goes on with digits nor begins
decimals. -/
theorem exponent_follows (number : NumberText) (h : IsBoundary rest) :
    ∀ c ∈ (number.exponent ++ rest).head?, c.isDigit = false ∧ c ≠ '.' := by
  rcases number.isExponent with hnone | ⟨letter, sign, places, hletter, -, -, hsome⟩
  · rw [hnone]
    exact fun c hc => ⟨(h.not_number c hc).1, (h.not_number c hc).2.1⟩
  · rw [hsome]
    rcases hletter with rfl | rfl <;> simp

theorem decimals_follow (number : NumberText) (h : IsBoundary rest) :
    ∀ c ∈ (number.decimals ++ (number.exponent ++ rest)).head?, c.isDigit = false := by
  rcases number.isDecimals with hnone | ⟨places, -, hsome⟩
  · rw [hnone]
    exact fun c hc => (number.exponent_follows h c hc).1
  · simp [hsome]

theorem readFraction_decimals (number : NumberText) (h : IsBoundary rest) :
    readFraction (number.decimals ++ (number.exponent ++ rest)) =
      some (number.decimals, number.exponent ++ rest) := by
  have hfollows := number.exponent_follows h
  rcases number.isDecimals with hnone | ⟨places, hplaces, hsome⟩
  · rw [hnone, List.nil_append]
    unfold readFraction
    split
    next hdot => exact absurd rfl (hfollows '.' (by rw [hdot]; rfl)).2
    next => rfl
  · obtain ⟨htake, hdrop⟩ := span_digits hplaces.2 fun c hc => (hfollows c hc).1
    simp [hsome, readFraction, htake, hdrop, hplaces.1]

theorem readExponent_exponent (number : NumberText) (h : IsBoundary rest) :
    readExponent (number.exponent ++ rest) = some (number.exponent, rest) := by
  rcases number.isExponent with hnone | ⟨letter, sign, places, hletter, hsign, hplaces, hsome⟩
  · rw [hnone, List.nil_append]
    cases rest with
    | nil => rfl
    | cons c rest =>
        obtain ⟨-, -, hlower, hupper⟩ := h.not_number c rfl
        simp [readExponent, hlower, hupper]
  · obtain ⟨htake, hdrop⟩ := span_digits hplaces.2 fun c hc => (h.not_number c hc).1
    have hread :
        ((sign ++ (places ++ rest)).take 1).filter (fun c => c == '+' || c == '-') = sign := by
      rcases hsign with rfl | rfl | rfl
      · obtain ⟨first, more, rfl⟩ := List.exists_cons_of_ne_nil hplaces.1
        have hfirst := hplaces.2 first (by simp)
        have hplus : first ≠ '+' := by rintro rfl; simp at hfirst
        have hminus : first ≠ '-' := by rintro rfl; simp at hfirst
        simp [hplus, hminus]
      · simp
      · simp
    simp [hsome, readExponent, hletter, hread, htake, hdrop, hplaces.1]

theorem sign_isEmpty (number : NumberText) : number.sign.isEmpty = !number.negative := by
  unfold sign
  cases number.negative <;> rfl

/-- The document of a number, as a reader that has its parts finds it. -/
theorem document_eq (number : NumberText) :
    number.document =
      if (number.decimals.isEmpty && number.exponent.isEmpty &&
          !(digitsValue number.digits == 0 && !number.sign.isEmpty)) = true then
        .whole (if number.sign.isEmpty = true then Int.ofNat (digitsValue number.digits)
          else -Int.ofNat (digitsValue number.digits))
      else .fraction (String.ofList number.chars) := by
  have hwhole : (number.decimals.isEmpty && number.exponent.isEmpty &&
      !(digitsValue number.digits == 0 && !number.sign.isEmpty)) = true ↔
      number.decimals = [] ∧ number.exponent = [] ∧
        ¬ (number.negative = true ∧ Nat.ofDigitChars 10 number.digits 0 = 0) := by
    rw [sign_isEmpty]
    cases number.negative <;> simp [digitsValue, and_assoc]
  rw [document, whole?]
  by_cases h : number.decimals = [] ∧ number.exponent = [] ∧
      ¬ (number.negative = true ∧ Nat.ofDigitChars 10 number.digits 0 = 0)
  · rw [if_pos h, if_pos (hwhole.mpr h), sign_isEmpty]
    cases number.negative <;> rfl
  · rw [if_neg h, if_neg (mt hwhole.mp h)]

/-- A number is read whole, and all that follows it is left. -/
theorem readNumber_chars (number : NumberText) (h : IsBoundary rest) :
    readNumber (number.chars ++ rest) = some (number.document, rest) := by
  obtain ⟨htake, hdrop⟩ := span_digits number.isDigits.2 (number.decimals_follow h)
  have hplain := isPlainDigits_of_leads number.isDigits.1 number.leads
  have hsign : ((number.sign ++ (number.digits ++
      (number.decimals ++ (number.exponent ++ rest)))).take 1).filter (· == '-') = number.sign := by
    rcases hnegative : number.negative with - | -
    · obtain ⟨first, more, hdigits⟩ := List.exists_cons_of_ne_nil number.isDigits.1
      have hfirst := number.isDigits.2 first (by simp [hdigits])
      have hminus : first ≠ '-' := by
        rintro rfl
        exact absurd hfirst (by decide)
      simp [sign, hnegative, hdigits, hminus]
    · simp [sign, hnegative]
  rw [document_eq]
  simp only [readNumber, chars, List.append_assoc, hsign, List.drop_left, htake, hdrop, hplain,
    if_true, number.readFraction_decimals h, number.readExponent_exponent h, Option.bind_eq_bind,
    Option.bind_some]
  split <;> rfl

theorem exists_chars_cons (number : NumberText) :
    ∃ first more, number.chars = first :: more ∧ (first.isDigit = true ∨ first = '-') := by
  obtain ⟨first, more, hdigits⟩ := List.exists_cons_of_ne_nil number.isDigits.1
  have hfirst := number.isDigits.2 first (by simp [hdigits])
  rcases hnegative : number.negative with - | -
  · exact ⟨first, _, by simp [chars, sign, hnegative, hdigits]; rfl, .inl hfirst⟩
  · exact ⟨'-', _, by simp [chars, sign, hnegative]; rfl, .inr rfl⟩

end NumberText

theorem isSpace_of_number (h : c.isDigit = true ∨ c = '-') : isSpace c = false := by
  simp only [isSpace, Bool.or_eq_false_iff, beq_eq_false_iff_ne]
  refine ⟨⟨⟨?_, ?_⟩, ?_⟩, ?_⟩
  all_goals
    rintro rfl
    exact absurd h (by decide)

/-! ## Documents -/

section

variable {document item : Json} {items more : List Json} {members : List (String × Json)}
  {text : List Char}

/-- What spells a document begins with a character that is neither a blank nor a closing
bracket. -/
theorem SpellsValue.exists_cons (h : SpellsValue document text) :
    ∃ first back, text = first :: back ∧ isSpace first = false ∧ first ≠ ']' := by
  have hnumber (number : NumberText) : ∃ first back, number.chars = first :: back ∧
      isSpace first = false ∧ first ≠ ']' := by
    obtain ⟨first, back, hchars, hfirst⟩ := number.exists_chars_cons
    refine ⟨first, back, hchars, isSpace_of_number hfirst, ?_⟩
    rintro rfl
    exact absurd hfirst (by decide)
  cases document with
  | null =>
      rw [SpellsValue] at h
      exact ⟨_, _, h, by decide, by decide⟩
  | bool value =>
      cases value <;> rw [SpellsValue] at h <;> exact ⟨_, _, h, by decide, by decide⟩
  | whole value =>
      rw [SpellsValue] at h
      obtain ⟨number, -, rfl⟩ := h
      exact hnumber number
  | fraction spelling =>
      rw [SpellsValue] at h
      obtain ⟨number, -, rfl⟩ := h
      exact hnumber number
  | text content =>
      rw [SpellsValue] at h
      obtain ⟨inner, -, rfl⟩ := h
      exact ⟨_, _, rfl, by decide, by decide⟩
  | list items =>
      rw [SpellsValue] at h
      obtain ⟨inner, -, rfl⟩ := h
      exact ⟨_, _, rfl, by decide, by decide⟩
  | object members =>
      rw [SpellsValue] at h
      obtain ⟨inner, -, rfl⟩ := h
      exact ⟨_, _, rfl, by decide, by decide⟩

theorem readValue_blank (h : IsBlank front) (fuel : Nat) (rest : List Char) :
    readValue fuel (front ++ rest) = readValue fuel rest := by
  cases fuel with
  | zero => simp [readValue]
  | succ fuel => rw [readValue, readValue, skipSpace_blank h]

theorem readItems_blank (h : IsBlank front) (fuel : Nat) (rest : List Char) :
    readItems fuel (front ++ rest) = readItems fuel rest := by
  cases fuel with
  | zero => simp [readItems]
  | succ fuel => rw [readItems, readItems, readValue_blank h]

theorem readMembers_blank (h : IsBlank front) (fuel : Nat) (rest : List Char) :
    readMembers fuel (front ++ rest) = readMembers fuel rest := by
  cases fuel with
  | zero => simp [readMembers]
  | succ fuel => rw [readMembers, readMembers, skipSpace_blank h]

/-- A digit or a sign begins a number and nothing else. -/
theorem readValue_number (h : c.isDigit = true ∨ c = '-') (fuel : Nat) (rest : List Char) :
    readValue (fuel + 1) (c :: rest) = readNumber (c :: rest) := by
  rw [readValue, skipSpace_cons (isSpace_of_number h)]
  split
  case h_7 => rfl
  all_goals
    rename_i hinput
    obtain ⟨rfl, -⟩ := List.cons.inj hinput
    exact absurd h (by decide)

theorem readValue_chars (number : NumberText) (h : IsBoundary rest) (fuel : Nat) :
    readValue (fuel + 1) (number.chars ++ rest) = some (number.document, rest) := by
  obtain ⟨first, back, hchars, hfirst⟩ := number.exists_chars_cons
  have hread := number.readNumber_chars h
  rw [hchars, List.cons_append] at hread ⊢
  rw [readValue_number hfirst, hread]

theorem readValue_quote (fuel : Nat) (rest : List Char) :
    readValue (fuel + 1) ('"' :: rest) =
      (readText fuel rest).map fun found => (.text (String.ofList found.1), found.2) := by
  have hdispatch : readValue (fuel + 1) ('"' :: rest) =
      (readText fuel rest).bind fun found => some (.text (String.ofList found.1), found.2) := rfl
  rw [hdispatch]
  cases readText fuel rest <;> rfl

theorem readValue_bracket (fuel : Nat) (input : List Char) :
    readValue (fuel + 1) ('[' :: input) =
      match skipSpace input with
      | ']' :: rest => some (.list [], rest)
      | rest => (readItems fuel rest).bind fun found => some (.list found.1, found.2) := rfl

theorem readValue_brace (fuel : Nat) (input : List Char) :
    readValue (fuel + 1) ('{' :: input) =
      match skipSpace input with
      | '}' :: rest => some (.object [], rest)
      | rest => (readMembers fuel rest).bind fun found => some (.object found.1, found.2) := rfl

/-- What is read of a list once its first item is read. -/
theorem readItems_of_item {input : List Char} (hitem : readValue fuel input = some (item, rest)) :
    readItems (fuel + 1) input =
      match skipSpace rest with
      | ']' :: rest => some ([item], rest)
      | ',' :: rest => (readItems fuel rest).map fun found => (item :: found.1, found.2)
      | _ => none := by
  have hdispatch : readItems (fuel + 1) input =
      (readValue fuel input).bind fun found =>
        match skipSpace found.2 with
        | ']' :: rest => some ([found.1], rest)
        | ',' :: rest =>
            (readItems fuel rest).bind fun more => some (found.1 :: more.1, more.2)
        | _ => none := by
    rw [readItems]
    rfl
  rw [hdispatch, hitem, Option.bind_some]
  dsimp only
  split
  · rfl
  next more _ => cases readItems fuel more <;> rfl
  · rfl

theorem readMembers_quote (fuel : Nat) (named : List Char) :
    readMembers (fuel + 1) ('"' :: named) =
      (readText fuel named).bind fun name =>
        match skipSpace name.2 with
        | ':' :: valued =>
            (readValue fuel valued).bind fun found =>
              match skipSpace found.2 with
              | '}' :: rest => some ([(String.ofList name.1, found.1)], rest)
              | ',' :: rest => (readMembers fuel rest).bind fun more =>
                  some ((String.ofList name.1, found.1) :: more.1, more.2)
              | _ => none
        | _ => none := by
  rw [readMembers, skipSpace_cons (by decide)]
  rfl

/-- What is read of an object once the name and the value of its first member are
read. -/
theorem readMembers_of_member {named after valued : List Char} {value : Json}
    (hname : readText fuel named = some (content, after))
    (hcolon : skipSpace after = ':' :: valued)
    (hvalue : readValue fuel valued = some (value, rest)) :
    readMembers (fuel + 1) ('"' :: named) =
      match skipSpace rest with
      | '}' :: rest => some ([(String.ofList content, value)], rest)
      | ',' :: rest => (readMembers fuel rest).map fun found =>
          ((String.ofList content, value) :: found.1, found.2)
      | _ => none := by
  rw [readMembers_quote, hname, Option.bind_some]
  simp only [hcolon, hvalue, Option.bind_some]
  split
  · rfl
  next more _ => cases readMembers fuel more <;> rfl
  · rfl

/-- A padded value is read, and what is left goes on as what follows it. -/
theorem readValue_padded (hread : ∀ {text : List Char}, SpellsValue item text →
      text.length ≤ fuel → ∀ {rest}, IsBoundary rest →
        readValue fuel (text ++ rest) = some (item, rest))
    (h : Padded (SpellsValue item) text) (hfuel : text.length ≤ fuel) (hrest : IsBoundary rest) :
    ∃ left, readValue fuel (text ++ rest) = some (item, left) ∧
      skipSpace left = skipSpace rest := by
  obtain ⟨front, body, back, hfront, hbody, hback, rfl⟩ := h
  simp only [List.length_append] at hfuel
  refine ⟨back ++ rest, ?_, skipSpace_blank hback rest⟩
  rw [List.append_assoc, List.append_assoc, readValue_blank hfront]
  exact hread hbody (by omega) (isBoundary_blank hback hrest)

theorem isBoundary_moreItems (h : SpellsMoreItems items text) (rest : List Char) :
    IsBoundary (text ++ ']' :: rest) := by
  cases items with
  | nil =>
      rw [SpellsMoreItems] at h
      rw [h]
      exact isBoundary_cons (by simp) rest
  | cons item more =>
      rw [SpellsMoreItems] at h
      obtain ⟨front, back, -, -, rfl⟩ := h
      exact isBoundary_cons (by simp) _

theorem isBoundary_moreMembers (h : SpellsMoreMembers members text) (rest : List Char) :
    IsBoundary (text ++ '}' :: rest) := by
  cases members with
  | nil =>
      rw [SpellsMoreMembers] at h
      rw [h]
      exact isBoundary_cons (by simp) rest
  | cons member more =>
      rw [SpellsMoreMembers] at h
      obtain ⟨front, back, -, -, rfl⟩ := h
      exact isBoundary_cons (by simp) _

/-- The items after the first are a comma and the items of a list. -/
theorem spellsMoreItems_cons (h : SpellsMoreItems (item :: more) text) :
    ∃ inner, text = ',' :: inner ∧ SpellsItems (item :: more) inner := by
  rw [SpellsMoreItems] at h
  obtain ⟨front, back, hfront, hback, rfl⟩ := h
  exact ⟨_, rfl, by rw [SpellsItems]; exact ⟨front, back, hfront, hback, rfl⟩⟩

theorem spellsMoreMembers_cons {member : String × Json}
    (h : SpellsMoreMembers (member :: members) text) :
    ∃ inner, text = ',' :: inner ∧ SpellsMembers (member :: members) inner := by
  rw [SpellsMoreMembers] at h
  obtain ⟨front, back, hfront, hback, rfl⟩ := h
  exact ⟨_, rfl, by rw [SpellsMembers]; exact ⟨front, back, hfront, hback, rfl⟩⟩

/-- The items of a list begin with no closing bracket, and blanks in front of them do
not matter. -/
theorem skipSpace_items (h : SpellsItems (item :: more) inner) (rest : List Char) :
    ∃ first back, skipSpace (inner ++ rest) = first :: back ∧ first ≠ ']' ∧
      ∀ fuel, readItems fuel (first :: back) = readItems fuel (inner ++ rest) := by
  rw [SpellsItems] at h
  obtain ⟨padded, others, ⟨front, body, back, hfront, hbody, -, rfl⟩, -, rfl⟩ := h
  obtain ⟨first, tail, rfl, hsolid, hopen⟩ := hbody.exists_cons
  refine ⟨first, tail ++ (back ++ (others ++ rest)), ?_, hopen, fun fuel => ?_⟩
  · simp only [List.append_assoc, List.cons_append]
    rw [skipSpace_blank hfront, skipSpace_cons hsolid]
  · simp only [List.append_assoc, List.cons_append]
    rw [readItems_blank hfront]

theorem skipSpace_members {member : String × Json} (h : SpellsMembers (member :: members) inner)
    (rest : List Char) :
    ∃ back, skipSpace (inner ++ rest) = '"' :: back ∧
      ∀ fuel, readMembers fuel ('"' :: back) = readMembers fuel (inner ++ rest) := by
  obtain ⟨name, value⟩ := member
  rw [SpellsMembers] at h
  obtain ⟨first, others, hfirst, -, rfl⟩ := h
  rw [SpellsMember] at hfirst
  obtain ⟨padded, valued, ⟨front, body, back, hfront, ⟨named, -, rfl⟩, -, rfl⟩, -, rfl⟩ := hfirst
  refine ⟨named ++ '"' :: (back ++ (':' :: (valued ++ (others ++ rest)))), ?_, fun fuel => ?_⟩
  · simp only [List.append_assoc, List.cons_append, List.nil_append]
    rw [skipSpace_blank hfront, skipSpace_cons (by decide)]
  · simp only [List.append_assoc, List.cons_append, List.nil_append]
    rw [readMembers_blank hfront]

end

mutual

/-- A document is read to its end, whatever follows it. The length of its spelling is
fuel enough. -/
theorem readValue_of_spells (document : Json) {text rest : List Char} {fuel : Nat}
    (h : SpellsValue document text) (hfuel : text.length ≤ fuel) (hrest : IsBoundary rest) :
    readValue fuel (text ++ rest) = some (document, rest) := by
  obtain ⟨first, tail, hcons, -⟩ := h.exists_cons
  have hpos : 0 < text.length := by simp [hcons]
  obtain ⟨fuel, rfl⟩ : ∃ below, fuel = below + 1 := Nat.exists_eq_succ_of_ne_zero (by omega)
  match document with
  | .null =>
    rw [SpellsValue] at h
    rw [h]
    rfl
  | .bool true | .bool false =>
    rw [SpellsValue] at h
    rw [h]
    rfl
  | .whole value | .fraction spelling =>
    rw [SpellsValue] at h
    obtain ⟨number, hdocument, rfl⟩ := h
    rw [readValue_chars number hrest, hdocument]
  | .text content =>
    rw [SpellsValue] at h
    obtain ⟨opened, hquote, hread⟩ := readText_of_spells h hfuel rest
    rw [hquote, readValue_quote, hread]
    simp
  | .list [] =>
    rw [SpellsValue] at h
    obtain ⟨inner, hinner, rfl⟩ := h
    rw [SpellsItems] at hinner
    rw [List.cons_append, List.append_assoc, readValue_bracket, skipSpace_blank hinner]
    rfl
  | .list (item :: more) =>
    rw [SpellsValue] at h
    obtain ⟨inner, hinner, rfl⟩ := h
    simp only [List.length_cons, List.length_append, List.length_nil] at hfuel
    obtain ⟨first, back, hskip, hopen, hblank⟩ := skipSpace_items hinner (']' :: rest)
    have hitems := readItems_of_spells item more hinner (Nat.lt_of_succ_lt_succ hfuel) rest
    rw [List.cons_append, List.append_assoc, List.singleton_append, readValue_bracket, hskip]
    split
    next hclosed => exact absurd (List.cons.inj hclosed).1 hopen
    next =>
      rw [hblank, hitems]
      rfl
  | .object [] =>
    rw [SpellsValue] at h
    obtain ⟨inner, hinner, rfl⟩ := h
    rw [SpellsMembers] at hinner
    rw [List.cons_append, List.append_assoc, readValue_brace, skipSpace_blank hinner]
    rfl
  | .object (member :: more) =>
    rw [SpellsValue] at h
    obtain ⟨inner, hinner, rfl⟩ := h
    simp only [List.length_cons, List.length_append, List.length_nil] at hfuel
    obtain ⟨back, hskip, hblank⟩ := skipSpace_members hinner ('}' :: rest)
    have hmembers := readMembers_of_spells member more hinner (Nat.lt_of_succ_lt_succ hfuel) rest
    rw [List.cons_append, List.append_assoc, List.singleton_append, readValue_brace, hskip]
    split
    next hclosed => exact absurd (List.cons.inj hclosed).1 (by decide)
    next =>
      rw [hblank, hmembers]
      rfl

theorem readItems_of_spells (item : Json) (more : List Json) {inner : List Char} {fuel : Nat}
    (h : SpellsItems (item :: more) inner) (hfuel : inner.length < fuel) (rest : List Char) :
    readItems fuel (inner ++ ']' :: rest) = some (item :: more, rest) := by
  obtain ⟨fuel, rfl⟩ : ∃ below, fuel = below + 1 := Nat.exists_eq_succ_of_ne_zero (by omega)
  rw [SpellsItems] at h
  obtain ⟨front, back, hfront, hback, rfl⟩ := h
  rw [List.length_append] at hfuel
  have hlength : front.length ≤ fuel := by omega
  obtain ⟨left, hread, hleft⟩ := readValue_padded
    (fun hitem hlength _ hrest => readValue_of_spells item hitem hlength hrest) hfront hlength
    (isBoundary_moreItems hback rest)
  rw [List.append_assoc, readItems_of_item hread, hleft]
  match more with
  | [] =>
    rw [SpellsMoreItems] at hback
    rw [hback]
    rfl
  | second :: others =>
    obtain ⟨inner, rfl, hinner⟩ := spellsMoreItems_cons hback
    rw [List.length_cons] at hfuel
    have hshorter : inner.length < fuel := by omega
    have hothers := readItems_of_spells second others hinner hshorter rest
    rw [List.cons_append, skipSpace_cons (by decide)]
    simp [hothers]

theorem readMembers_of_spells (member : String × Json) (more : List (String × Json))
    {inner : List Char} {fuel : Nat} (h : SpellsMembers (member :: more) inner)
    (hfuel : inner.length < fuel) (rest : List Char) :
    readMembers fuel (inner ++ '}' :: rest) = some (member :: more, rest) := by
  obtain ⟨fuel, rfl⟩ : ∃ below, fuel = below + 1 := Nat.exists_eq_succ_of_ne_zero (by omega)
  rw [SpellsMembers] at h
  obtain ⟨front, back, hfront, hback, rfl⟩ := h
  have hboundary := isBoundary_moreMembers hback rest
  match member with
  | (name, value) =>
    rw [SpellsMember] at hfront
    obtain ⟨named, valued, hnamed, hvalued, rfl⟩ := hfront
    obtain ⟨before, text, after, hbefore, htext, hafter, rfl⟩ := hnamed
    simp only [List.length_append, List.length_cons] at hfuel
    have hlength : valued.length ≤ fuel := by omega
    have htextLength : text.length ≤ fuel + 1 := by omega
    obtain ⟨left, hvalue, hleft⟩ := readValue_padded
      (fun hitem hlength _ hrest => readValue_of_spells value hitem hlength hrest) hvalued hlength
      hboundary
    obtain ⟨opened, hquote, hname⟩ := readText_of_spells htext htextLength
      (after ++ ':' :: (valued ++ (back ++ '}' :: rest)))
    have hcolon : skipSpace (after ++ ':' :: (valued ++ (back ++ '}' :: rest))) =
        ':' :: (valued ++ (back ++ '}' :: rest)) := by
      rw [skipSpace_blank hafter, skipSpace_cons (by decide)]
    have hshape : before ++ text ++ after ++ ':' :: valued ++ back ++ '}' :: rest =
        before ++ '"' :: opened := by
      rw [← hquote]
      simp
    rw [hshape, readMembers_blank hbefore, readMembers_of_member hname hcolon hvalue, hleft,
      String.ofList_toList]
    match more with
    | [] =>
      rw [SpellsMoreMembers] at hback
      rw [hback]
      rfl
    | second :: others =>
      obtain ⟨inner, rfl, hinner⟩ := spellsMoreMembers_cons hback
      rw [List.length_cons] at hfuel
      have hshorter : inner.length < fuel := by omega
      have hothers := readMembers_of_spells second others hinner hshorter rest
      rw [List.cons_append, skipSpace_cons (by decide)]
      simp [hothers]

end

/-- Every text of the grammar is read, as the document it spells. -/
theorem parse?_of_spells {document : Json} {text : String} (h : document.Spells text) :
    parse? text = some document := by
  obtain ⟨left, hread, hleft⟩ := readValue_padded
    (fun hdocument hlength _ hrest => readValue_of_spells document hdocument hlength hrest) h
    (show text.toList.length ≤ 2 * text.toList.length + 2 by omega) isBoundary_nil
  rw [List.append_nil] at hread
  have hend : skipSpace left = [] := hleft
  rw [parse?, read?, hread]
  simp [hend]

/-- A text spells one document at most. -/
theorem Spells.unique {document other : Json} {text : String} (h : document.Spells text)
    (hother : other.Spells text) : document = other := by
  have hread := parse?_of_spells h
  rw [parse?_of_spells hother] at hread
  exact (Option.some.inj hread).symm

end SpokenKeys.Json
