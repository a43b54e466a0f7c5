/-!
# Numerals

A numeral in decimal notation: digits, a point and an exponent, and the double nearest to what it
denotes. Which of these parts may be left out is for each format to say; the parts themselves are
read here.
-/

namespace Minifier

/-- A numeral as written: `± digits · 10 ^ scale`. -/
structure Numeral where
  negative : Bool
  digits : Nat
  scale : Int
  /-- no point and no exponent -/
  integral : Bool
deriving Repr

namespace Numeral

/-- The double nearest to a numeral; beyond the greatest double it is infinite. -/
def toFloat (n : Numeral) : Float :=
  let x := Float.ofScientific n.digits (n.scale < 0) n.scale.natAbs
  if n.negative then -x else x

/-- The value of a decimal digit. -/
def digitValue (c : Char) : Nat := c.toNat - '0'.toNat

/-- The number that a run of decimal digits denotes. -/
def natOfDigits (ds : List Char) : Nat := ds.foldl (fun n c => 10 * n + digitValue c) 0

/-- A non-empty run of digits, and what follows it. -/
def digits? (cs : List Char) : Option (List Char × List Char) :=
  match cs.span Char.isDigit with
  | ([], _) => none
  | run => some run

/-- The power of ten after an exponent mark, if there is one. -/
def exponent? : List Char → Option (Option Int × List Char)
  | c :: rest =>
    if c == 'e' || c == 'E' then
      let (negative, rest) := match rest with
        | '+' :: r => (false, r)
        | '-' :: r => (true, r)
        | r => (false, r)
      match digits? rest with
      | some (ds, after) =>
        some (some (if negative then -natOfDigits ds else natOfDigits ds), after)
      | none => none
    else some (none, c :: rest)
  | [] => some (none, [])

/-- The numeral of given digits before and after the point and of a power of ten, if one is given. -/
def ofDigits (negative : Bool) (whole fraction : List Char) (power : Option Int) : Numeral where
  negative
  digits := natOfDigits (whole ++ fraction)
  scale := power.getD 0 - fraction.length
  integral := fraction.isEmpty && power.isNone

end Numeral

end Minifier
