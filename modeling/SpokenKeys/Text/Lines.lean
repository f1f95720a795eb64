/-!
The lines of a text. A line ends with a line feed, before which a carriage return
may stand; what follows the last line feed, if anything, is a line too.
-/

namespace SpokenKeys.Text

/-- The lines of a text without their ends. -/
def linesOf : List Char → List (List Char)
  | [] => []
  | '\n' :: rest => [] :: linesOf rest
  | '\r' :: '\n' :: rest => [] :: linesOf rest
  | c :: rest =>
      match linesOf rest with
      | [] => [[c]]
      | line :: lines => (c :: line) :: lines

def lines (text : String) : List String := (linesOf text.toList).map String.ofList

end SpokenKeys.Text
