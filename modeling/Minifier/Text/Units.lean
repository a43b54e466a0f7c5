/-!
# Texts as 16-bit units

Programs compare strings by their UTF-16 units, not by their characters: a character beyond
U+FFFF takes two units, both of which lie below U+E000, so it sorts before the characters from
U+E000 to U+FFFF.
-/

namespace Minifier.Text

/-- The UTF-16 units of a character. -/
def unitsOfChar (c : Char) : List Nat :=
  let code := c.toNat
  if code < 0x10000 then [code]
  else [0xD800 + (code - 0x10000) / 0x400, 0xDC00 + (code - 0x10000) % 0x400]

/-- The UTF-16 units of a text. -/
def units (s : String) : List Nat := s.toList.flatMap unitsOfChar

/-- The lexicographic order of unit sequences. -/
def compareUnits : List Nat → List Nat → Ordering
  | [], [] => .eq
  | [], _ :: _ => .lt
  | _ :: _, [] => .gt
  | a :: as, b :: bs => if a < b then .lt else if b < a then .gt else compareUnits as bs

/-- The order of texts by their units. -/
def compare (s t : String) : Ordering := compareUnits (units s) (units t)

end Minifier.Text
