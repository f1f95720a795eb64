import Mathlib.Data.List.TakeWhile
import SpokenKeys.Text.Blank

/-!
The words of a text. A blank divides a text into the words before it and the
words after it, so words that are joined by single blanks are found again.
-/

namespace SpokenKeys.Text

variable {word front back : List Char} {c : Char}

theorem wordsOf_cons_blank (h : isBlank c = true) (rest : List Char) :
    wordsOf (c :: rest) = wordsOf rest := by
  rw [wordsOf, if_pos h]

theorem wordsOf_cons (h : isBlank c = false) (rest : List Char) :
    wordsOf (c :: rest) = (c :: rest.takeWhile fun d => !isBlank d) ::
      wordsOf (rest.dropWhile fun d => !isBlank d) := by
  rw [wordsOf, if_neg (by simp [h])]

/-- A blank ends the word before it, and belongs to none. -/
theorem wordsOf_append_blank (front : List Char) (h : isBlank c = true) (back : List Char) :
    wordsOf (front ++ c :: back) = wordsOf front ++ wordsOf back := by
  fun_induction wordsOf front with
  | case1 => exact wordsOf_cons_blank h back
  | case2 first rest hfirst ih =>
      rw [List.cons_append, wordsOf_cons_blank hfirst, ih]
  | case3 first rest hfirst ih =>
      have htake : (rest ++ c :: back).takeWhile (fun d => !isBlank d) =
          rest.takeWhile fun d => !isBlank d := by
        rw [List.takeWhile_append, List.takeWhile_cons_of_neg (by simp [h]), List.append_nil]
        split
        next hall => exact ((List.takeWhile_prefix _).eq_of_length hall).symm
        next => rfl
      have hdrop : (rest ++ c :: back).dropWhile (fun d => !isBlank d) =
          (rest.dropWhile fun d => !isBlank d) ++ c :: back := by
        rw [List.dropWhile_append, List.dropWhile_cons_of_neg (by simp [h])]
        split
        next hempty => rw [List.isEmpty_iff.mp hempty, List.nil_append]
        next => rfl
      rw [List.cons_append, wordsOf_cons (by simpa using hfirst), htake, hdrop, ih,
        List.cons_append]

/-- A word has some characters, and no blank among them. -/
def IsWord (word : List Char) : Prop :=
  word ≠ [] ∧ ∀ c ∈ word, isBlank c = false

theorem wordsOf_of_isWord (h : IsWord word) : wordsOf word = [word] := by
  obtain ⟨hnonempty, hplain⟩ := h
  obtain ⟨first, rest, rfl⟩ := List.exists_cons_of_ne_nil hnonempty
  obtain ⟨hfirst, hrest⟩ := List.forall_mem_cons.mp hplain
  have hall : ∀ d ∈ rest, (!isBlank d) = true := fun d hd => by rw [hrest d hd]; rfl
  rw [wordsOf_cons hfirst, List.takeWhile_eq_self_iff.mpr hall, List.dropWhile_eq_nil_iff.mpr hall,
    wordsOf]

theorem isWord_of_mem_wordsOf {text : List Char} (h : word ∈ wordsOf text) : IsWord word := by
  fun_induction wordsOf text with
  | case1 => cases h
  | case2 first rest hfirst ih => exact ih h
  | case3 first rest hfirst ih =>
      rcases List.mem_cons.mp h with rfl | h
      · refine ⟨List.cons_ne_nil _ _, List.forall_mem_cons.mpr ⟨by simpa using hfirst, ?_⟩⟩
        intro c hc
        simpa using List.all_eq_true.mp List.all_takeWhile c hc
      · exact ih h

/-- Words that are joined by single blanks are found again. -/
theorem wordsOf_intercalate {words : List (List Char)} (h : ∀ word ∈ words, IsWord word) :
    wordsOf ([' '].intercalate words) = words := by
  induction words with
  | nil => rw [List.intercalate_nil, wordsOf]
  | cons first rest ih =>
      obtain ⟨hfirst, hrest⟩ := List.forall_mem_cons.mp h
      cases rest with
      | nil => rw [List.intercalate_singleton, wordsOf_of_isWord hfirst]
      | cons second rest =>
          have hblank : isBlank ' ' = true := by decide
          rw [List.intercalate_cons_cons, List.append_assoc, List.singleton_append,
            wordsOf_append_blank first hblank, wordsOf_of_isWord hfirst, ih hrest,
            List.singleton_append]

theorem isWord_of_mem_words {text word : String} (h : word ∈ words text) :
    IsWord word.toList := by
  obtain ⟨letters, hletters, rfl⟩ := List.mem_map.mp h
  rw [String.toList_ofList]
  exact isWord_of_mem_wordsOf hletters

theorem words_intercalate {spoken : List String} (h : ∀ word ∈ spoken, IsWord word.toList) :
    words (" ".intercalate spoken) = spoken := by
  have hletters : ∀ word ∈ spoken.map String.toList, IsWord word := by
    intro word hword
    obtain ⟨text, htext, rfl⟩ := List.mem_map.mp hword
    exact h text htext
  have hblank : " ".toList = [' '] := rfl
  rw [words, String.toList_intercalate, hblank, wordsOf_intercalate hletters, List.map_map]
  simp

end SpokenKeys.Text
