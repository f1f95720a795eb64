/-!
White space and the words between it. The class is the Unicode property
White_Space, which has twenty-five characters.
-/

namespace SpokenKeys.Text

/-- The characters of the Unicode property White_Space. -/
def isBlank (c : Char) : Bool :=
  let n := c.toNat
  (9 ≤ n && n ≤ 13) || n == 0x20 || n == 0x85 || n == 0xA0 || n == 0x1680 ||
    (0x2000 ≤ n && n ≤ 0x200A) || n == 0x2028 || n == 0x2029 || n == 0x202F ||
    n == 0x205F || n == 0x3000

/-- The longest runs of characters that are not blank, left to right. -/
def wordsOf : List Char → List (List Char)
  | [] => []
  | c :: rest =>
      if isBlank c then wordsOf rest
      else
        (c :: rest.takeWhile fun d => !isBlank d) ::
          wordsOf (rest.dropWhile fun d => !isBlank d)
termination_by text => text.length
decreasing_by
  · simp
  · have h := (List.dropWhile_suffix (l := rest) fun d => !isBlank d).length_le
    simp only [List.length_cons]
    omega

/-- The words of a text: what stands between its blanks. -/
def words (text : String) : List String :=
  (wordsOf text.toList).map String.ofList

/-- A text of blanks only, the empty text included. -/
def isBlankText (text : String) : Bool :=
  text.toList.all isBlank

end SpokenKeys.Text
