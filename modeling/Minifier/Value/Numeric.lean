import Minifier.Decimal.Numeral
import Minifier.Double
import Minifier.Text.Blank
import Minifier.Value.Text

/-!
# The number of a value

What a value is as a number. The text of a string may be a decimal numeral, `Infinity` with a sign, or
a whole number after one of the radix marks `0x`, `0o` and `0b`; blanks around it do not matter, and
a blank text is zero. Any other text is not a number.
-/

namespace Minifier

namespace Value

/-- The value of a digit in bases up to sixteen. -/
def digitIn? (radix : Nat) (c : Char) : Option Nat :=
  let value :=
    if c.isDigit then c.toNat - '0'.toNat
    else if 'a' ≤ c ∧ c ≤ 'f' then c.toNat - 'a'.toNat + 10
    else if 'A' ≤ c ∧ c ≤ 'F' then c.toNat - 'A'.toNat + 10
    else radix
  if value < radix then some value else none

/-- The number that digits of a radix denote, in front of which `n` has been read. -/
def natIn? (radix n : Nat) : List Char → Option Nat
  | [] => some n
  | c :: rest => (digitIn? radix c).bind fun digit => natIn? radix (radix * n + digit) rest

/-- The number after a radix mark: an optional plus and digits that denote less than `2 ^ 64`. -/
def wordIn (radix : Nat) (cs : List Char) : Float :=
  let digits := match cs with
    | '+' :: rest => rest
    | rest => rest
  match digits, natIn? radix 0 digits with
  | [], _ | _, none => Double.nan
  | _, some n => if n < 0x10000000000000000 then Float.ofNat n else Double.nan

/-- The radix that a mark announces, and what follows the mark. -/
def radixMark? : List Char → Option (Nat × List Char)
  | '0' :: mark :: rest =>
    if mark == 'x' || mark == 'X' then some (16, rest)
    else if mark == 'o' || mark == 'O' then some (8, rest)
    else if mark == 'b' || mark == 'B' then some (2, rest)
    else none
  | _ => none

/-- A text without its sign, and whether the sign is a minus. -/
def splitSign : List Char → Bool × List Char
  | '+' :: rest => (false, rest)
  | '-' :: rest => (true, rest)
  | rest => (false, rest)

/-- The digits before and after a point, at least one of them, and what follows. -/
def mantissa? (cs : List Char) : Option (List Char × List Char × List Char) :=
  let (whole, rest) := cs.span Char.isDigit
  let (fraction, rest) := match rest with
    | '.' :: rest => rest.span Char.isDigit
    | rest => ([], rest)
  if whole.isEmpty && fraction.isEmpty then none else some (whole, fraction, rest)

/-- The decimal numeral that a text without blanks is. -/
def numeral? (cs : List Char) : Option Numeral :=
  let (negative, cs) := splitSign cs
  match mantissa? cs with
  | none => none
  | some (whole, fraction, rest) =>
    match Numeral.exponent? rest with
    | some (power, []) => some (.ofDigits negative whole fraction power)
    | _ => none

/-- The number that a text denotes. -/
def numberOfText (s : String) : Float :=
  let cs := Text.trim s.toList
  match cs, radixMark? cs with
  | [], _ => 0.0
  | _, some (radix, digits) => wordIn radix digits
  | _, none =>
    if (splitSign cs).2 = "Infinity".toList then
      if (splitSign cs).1 then -Double.infinity else Double.infinity
    else
      match numeral? cs with
      | some numeral => numeral.toFloat
      | none => Double.nan

/-- The number of a value. An array is what its text is if it has at most one item. -/
def toNumber : Value → Float
  | .undefined => Double.nan
  | .null => 0.0
  | .bool b => if b then 1.0 else 0.0
  | .number x => x
  | .string s => numberOfText s
  | .array [] => 0.0
  | .array [item] => numberOfText item.text
  | .array _ | .object _ => Double.nan

end Value

end Minifier
