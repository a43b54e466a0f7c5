import Minifier.Decimal.Numeral
import Minifier.Json.Basic

/-!
# Reading documents

Reading has two stages.

* `Draft.read?` follows the grammar. A *draft* keeps what the text says: numerals as digits and a
  power of ten, repeated names in an object, nesting of any depth, and strings in which an escape
  names half of a surrogate pair (such a string has no text).
* `Draft.toJson?` decides which drafts are values: every string has a text, every numeral lies in
  the range of doubles, and nesting stays within a limit. A repeated name keeps its first place and
  its last value.

The split lets a reader of settings skip over parts of a document whose values it never needs.
-/

namespace Minifier

namespace Numeral

/-- The double nearest to a numeral, unless it is out of range. -/
def toFloat? (n : Numeral) : Option Float :=
  if n.toFloat.isInf then none else some n.toFloat

/-- The integer of an integral numeral that fits 64 bits: without a sign up to `2 ^ 64 - 1`,
with one down to `- 2 ^ 63`. A negative zero is no integer. -/
def toInt? (n : Numeral) : Option Int :=
  if !n.integral then none
  else if n.negative then
    if n.digits = 0 ∨ 0x8000000000000000 < n.digits then none else some (-n.digits)
  else if n.digits < 0x10000000000000000 then some n.digits
  else none

/-- The number that a numeral denotes. -/
def toNumber? (n : Numeral) : Option Number :=
  match n.toInt? with
  | some i => some (.int i)
  | none => n.toFloat?.map .float

end Numeral

/-- A document as written. -/
inductive Draft where
  | null
  | bool (value : Bool)
  | number (numeral : Numeral)
  /-- without a text when an escape names an unpaired surrogate -/
  | string (text : Option String)
  | array (items : List Draft)
  | object (members : List (Option String × Draft))
deriving Inhabited

namespace Draft

open Numeral (digits? digitValue exponent?)

/-! ### Characters -/

/-- Blanks between the parts of a document. -/
def isBlank (c : Char) : Bool := c == ' ' || c == '\t' || c == '\n' || c == '\r'

/-- What follows the leading blanks. -/
def skipBlanks (cs : List Char) : List Char := cs.dropWhile isBlank

/-- The value of a hexadecimal digit of either case. -/
def hexValue? (c : Char) : Option Nat :=
  if c.isDigit then some (digitValue c)
  else if 'a' ≤ c ∧ c ≤ 'f' then some (c.toNat - 'a'.toNat + 10)
  else if 'A' ≤ c ∧ c ≤ 'F' then some (c.toNat - 'A'.toNat + 10)
  else none

/-- The 16-bit unit that four hexadecimal digits name. -/
def unit? (a b c d : Char) : Option Nat := do
  let a ← hexValue? a
  let b ← hexValue? b
  let c ← hexValue? c
  let d ← hexValue? d
  return ((a * 16 + b) * 16 + c) * 16 + d

/-- The character that a one-letter escape stands for. -/
def escaped? : Char → Option Char
  | '"' => some '"'
  | '\\' => some '\\'
  | '/' => some '/'
  | 'b' => some (Char.ofNat 8)
  | 'f' => some (Char.ofNat 12)
  | 'n' => some '\n'
  | 'r' => some '\r'
  | 't' => some '\t'
  | _ => none

/-! ### Strings -/

/-- A piece of a string: a character, or a 16-bit unit named by an escape. -/
inductive Piece where
  | char (c : Char)
  | unit (u : Nat)

/-- The pieces of a string whose opening quote has been read, and what follows the closing one. -/
def pieces? : List Char → Option (List Piece × List Char)
  | [] => none
  | '"' :: rest => some ([], rest)
  | '\\' :: 'u' :: a :: b :: c :: d :: rest =>
    match unit? a b c d, pieces? rest with
    | some u, some (ps, after) => some (.unit u :: ps, after)
    | _, _ => none
  | '\\' :: e :: rest =>
    match escaped? e, pieces? rest with
    | some c, some (ps, after) => some (.char c :: ps, after)
    | _, _ => none
  | c :: rest =>
    if c.toNat < 32 || c == '\\' then none
    else match pieces? rest with
      | some (ps, after) => some (.char c :: ps, after)
      | none => none

/-- First half of a surrogate pair. -/
def isHigh (u : Nat) : Bool := 0xD800 ≤ u && u < 0xDC00

/-- Second half of a surrogate pair. -/
def isLow (u : Nat) : Bool := 0xDC00 ≤ u && u < 0xE000

/-- The characters of a list of pieces, unless half of a surrogate pair stands alone. -/
def chars? : List Piece → Option (List Char)
  | [] => some []
  | .char c :: rest => (chars? rest).map (c :: ·)
  | .unit u :: .unit v :: rest =>
    if isHigh u then
      if isLow v then
        (chars? rest).map (Char.ofNat (0x10000 + (u - 0xD800) * 0x400 + (v - 0xDC00)) :: ·)
      else none
    else if isLow u then none
    else (chars? (.unit v :: rest)).map (Char.ofNat u :: ·)
  | .unit u :: rest =>
    if isHigh u || isLow u then none else (chars? rest).map (Char.ofNat u :: ·)

/-- A string whose opening quote has been read. -/
def string? (cs : List Char) : Option (Option String × List Char) :=
  match pieces? cs with
  | some (ps, rest) => some ((chars? ps).map String.ofList, rest)
  | none => none

/-! ### Numerals -/

/-- The whole part: a zero alone, or digits that start with another digit. -/
def whole? : List Char → Option (List Char × List Char)
  | '0' :: rest => if (rest.head?.map Char.isDigit).getD false then none else some (['0'], rest)
  | cs => digits? cs

/-- The digits after a point, if there is one. -/
def fraction? : List Char → Option (List Char × List Char)
  | '.' :: rest => digits? rest
  | cs => some ([], cs)

/-- A numeral, and what follows it. -/
def numeral? (cs : List Char) : Option (Numeral × List Char) :=
  let (negative, cs) := match cs with
    | '-' :: rest => (true, rest)
    | rest => (false, rest)
  match whole? cs with
  | none => none
  | some (whole, cs) =>
    match fraction? cs with
    | none => none
    | some (fraction, cs) =>
      match exponent? cs with
      | none => none
      | some (power, rest) =>
        some (.ofDigits negative whole fraction power, rest)

/-! ### Values

Each of the three functions below takes one unit of fuel for itself. A call consumes a character
or hands over to a function that does, so twice the length of the text is enough. -/

mutual

/-- A value, after leading blanks, and what follows it. -/
def value? : Nat → List Char → Option (Draft × List Char)
  | 0, _ => none
  | fuel + 1, cs =>
    match skipBlanks cs with
    | 'n' :: 'u' :: 'l' :: 'l' :: rest => some (.null, rest)
    | 't' :: 'r' :: 'u' :: 'e' :: rest => some (.bool true, rest)
    | 'f' :: 'a' :: 'l' :: 's' :: 'e' :: rest => some (.bool false, rest)
    | '"' :: rest => (string? rest).map fun (s, after) => (.string s, after)
    | '[' :: rest =>
      match skipBlanks rest with
      | ']' :: after => some (.array [], after)
      | inner => (items? fuel inner).map fun (xs, after) => (.array xs, after)
    | '{' :: rest =>
      match skipBlanks rest with
      | '}' :: after => some (.object [], after)
      | inner => (members? fuel inner).map fun (ms, after) => (.object ms, after)
    | rest => (numeral? rest).map fun (n, after) => (.number n, after)

/-- One or more items up to and with the closing bracket. -/
def items? : Nat → List Char → Option (List Draft × List Char)
  | 0, _ => none
  | fuel + 1, cs =>
    match value? fuel cs with
    | none => none
    | some (x, rest) =>
      match skipBlanks rest with
      | ']' :: after => some ([x], after)
      | ',' :: more => (items? fuel more).map fun (xs, after) => (x :: xs, after)
      | _ => none

/-- One or more members up to and with the closing brace. -/
def members? : Nat → List Char → Option (List (Option String × Draft) × List Char)
  | 0, _ => none
  | fuel + 1, cs =>
    match skipBlanks cs with
    | '"' :: rest =>
      match string? rest with
      | none => none
      | some (name, rest) =>
        match skipBlanks rest with
        | ':' :: rest =>
          match value? fuel rest with
          | none => none
          | some (x, rest) =>
            match skipBlanks rest with
            | '}' :: after => some ([(name, x)], after)
            | ',' :: more =>
              (members? fuel more).map fun (ms, after) => ((name, x) :: ms, after)
            | _ => none
        | _ => none
    | _ => none

end

/-- The draft that a whole text spells, with nothing but blanks around it. -/
def read? (text : String) : Option Draft :=
  let cs := text.toList
  match value? (2 * cs.length + 2) cs with
  | some (draft, rest) => if (skipBlanks rest).isEmpty then some draft else none
  | none => none

/-! ### From drafts to values -/

mutual

/-- The value of a draft, with at most `depth` arrays and objects around each other. -/
def toJson? (depth : Nat) : Draft → Option Json
  | .null => some .null
  | .bool b => some (.bool b)
  | .number n => n.toNumber?.map .number
  | .string s => s.map .string
  | .array xs => if depth = 0 then none else (itemValues? (depth - 1) xs).map .array
  | .object ms =>
    if depth = 0 then none
    else (memberValues? (depth - 1) ms).map fun pairs => .object (Entries.ofPairs pairs)

/-- The values of all items. -/
def itemValues? (depth : Nat) : List Draft → Option (List Json)
  | [] => some []
  | x :: rest =>
    match toJson? depth x, itemValues? depth rest with
    | some v, some vs => some (v :: vs)
    | _, _ => none

/-- The values of all members; a name without a text spoils the object. -/
def memberValues? (depth : Nat) : List (Option String × Draft) → Option (List (String × Json))
  | [] => some []
  | (name, x) :: rest =>
    match name, toJson? depth x, memberValues? depth rest with
    | some name, some v, some vs => some ((name, v) :: vs)
    | _, _, _ => none

end

end Draft

namespace Json

/-- How many arrays and objects a document may nest. -/
def nestingLimit : Nat := 127

/-- The value of a text, if it is a document that nests no deeper than `limit`. -/
def readWithin? (limit : Nat) (text : String) : Option Json :=
  (Draft.read? text).bind (·.toJson? limit)

/-- What is said of a text that is no document. -/
def unreadable : String := "not a JSON document"

/-- The value of a text, if it is a document. -/
def read? (text : String) : Option Json := readWithin? nestingLimit text

end Json

end Minifier
