import Minifier.Json.Basic
import Minifier.Decimal.Style

/-!
# Writing documents

Two forms of one document: `compact` has no blanks, `pretty` puts every item on a line of its own,
indented by two spaces for each level. Both write members in stored order.

In a string only the quote, the backslash and the control characters below U+0020 are escaped.
-/

namespace Minifier

namespace Number

/-- The text of an integer. -/
def intText (i : Int) : List Char :=
  if i < 0 then '-' :: Nat.toDigits 10 i.natAbs else Nat.toDigits 10 i.natAbs

/-- Doubles in documents: positional from `0.00001` to `1000000000000000.0`, always with a
fraction there; of two equally near decimals the one that ends in an even digit. -/
def floatStyle : Decimal.Style where
  least := -5
  greatest := 15
  wholeFraction := true
  tie := .even

/-- The text of a double. What is not finite has no text in a document and is written as null. -/
def floatText (x : Float) : List Char :=
  match Double.parts x with
  | .notANumber | .infinity _ => "null".toList
  | .zero s => signText s ++ ['0', '.', '0']
  | .finite s m e _ => signText s ++ floatStyle.write m e
where
  signText (s : Float.Model.UnpackedFloat.Sign) : List Char :=
    if s == .negative then ['-'] else []

/-- The text of a number. -/
def text : Number → List Char
  | .int i => intText i
  | .float x => floatText x

end Number

namespace Json

/-- A lower-case hexadecimal digit. -/
def hexDigit (n : Nat) : Char := Nat.digitChar n

/-- One character inside a string. -/
def escapeChar (c : Char) : List Char :=
  if c == '"' then ['\\', '"']
  else if c == '\\' then ['\\', '\\']
  else if 32 ≤ c.toNat then [c]
  else if c.toNat = 8 then ['\\', 'b']
  else if c.toNat = 9 then ['\\', 't']
  else if c.toNat = 10 then ['\\', 'n']
  else if c.toNat = 12 then ['\\', 'f']
  else if c.toNat = 13 then ['\\', 'r']
  else ['\\', 'u', '0', '0', hexDigit (c.toNat / 16), hexDigit (c.toNat % 16)]

/-- A quoted string. -/
def quoted (s : String) : List Char :=
  '"' :: s.toList.flatMap escapeChar ++ ['"']

mutual

/-- The document without blanks. -/
def compactText : Json → List Char
  | .null => "null".toList
  | .bool true => "true".toList
  | .bool false => "false".toList
  | .number n => n.text
  | .string s => quoted s
  | .array [] => ['[', ']']
  | .array (item :: rest) => '[' :: compactText item ++ compactItems rest
  | .object [] => ['{', '}']
  | .object ((name, value) :: rest) =>
    '{' :: quoted name ++ ':' :: compactText value ++ compactMembers rest

/-- The items after the first, up to and with the closing bracket. -/
def compactItems : List Json → List Char
  | [] => [']']
  | item :: rest => ',' :: compactText item ++ compactItems rest

/-- The members after the first, up to and with the closing brace. -/
def compactMembers : List (String × Json) → List Char
  | [] => ['}']
  | (name, value) :: rest =>
    ',' :: quoted name ++ ':' :: compactText value ++ compactMembers rest

end

/-- A new line at the given level. -/
def newline (level : Nat) : List Char := '\n' :: List.replicate (2 * level) ' '

mutual

/-- The document with one item per line, from the given level on. -/
def prettyText (level : Nat) : Json → List Char
  | .null => "null".toList
  | .bool true => "true".toList
  | .bool false => "false".toList
  | .number n => n.text
  | .string s => quoted s
  | .array [] => ['[', ']']
  | .array (item :: rest) =>
    '[' :: newline (level + 1) ++ prettyText (level + 1) item ++ prettyItems level rest
  | .object [] => ['{', '}']
  | .object ((name, value) :: rest) =>
    '{' :: newline (level + 1) ++ quoted name ++ ':' :: ' ' :: prettyText (level + 1) value
      ++ prettyMembers level rest

/-- The items after the first, up to and with the closing bracket. -/
def prettyItems (level : Nat) : List Json → List Char
  | [] => newline level ++ [']']
  | item :: rest =>
    ',' :: newline (level + 1) ++ prettyText (level + 1) item ++ prettyItems level rest

/-- The members after the first, up to and with the closing brace. -/
def prettyMembers (level : Nat) : List (String × Json) → List Char
  | [] => newline level ++ ['}']
  | (name, value) :: rest =>
    ',' :: newline (level + 1) ++ quoted name ++ ':' :: ' ' :: prettyText (level + 1) value
      ++ prettyMembers level rest

end

/-- The document without blanks. -/
def compact (j : Json) : String := String.ofList (compactText j)

/-- The document with one item per line. -/
def pretty (j : Json) : String := String.ofList (prettyText 0 j)

/-- A whole document in one of the two forms, with its final line end. -/
def document (compactForm : Bool) (j : Json) : String :=
  (if compactForm then j.compact else j.pretty).push '\n'

end Json

end Minifier
