/-!
Hexadecimal digits and the characters they spell in escapes.
-/

namespace SpokenKeys.Text

def hexValue? (c : Char) : Option Nat :=
  if '0' ≤ c ∧ c ≤ '9' then some (c.toNat - '0'.toNat)
  else if 'a' ≤ c ∧ c ≤ 'f' then some (c.toNat - 'a'.toNat + 10)
  else if 'A' ≤ c ∧ c ≤ 'F' then some (c.toNat - 'A'.toNat + 10)
  else none

/-- The number that hexadecimal digits spell, the highest digit first. -/
def hexNumber? (digits : List Char) : Option Nat :=
  digits.foldlM (fun value digit => (value * 16 + ·) <$> hexValue? digit) 0

/-- The character of a code point; surrogates and numbers beyond the last code
point have none. -/
def scalar? (code : Nat) : Option Char :=
  if code < 0xD800 ∨ (0xE000 ≤ code ∧ code < 0x110000) then some (Char.ofNat code) else none

end SpokenKeys.Text
