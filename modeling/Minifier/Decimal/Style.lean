import Minifier.Decimal.Shortest

/-!
# Writing decimals

A `Style` holds the decisions of a number format: which magnitudes are written positionally,
whether a whole number keeps a fraction `.0`, and how ties between shortest decimals are broken.
Outside the positional range a number is written as `d.ddde+N` or `d.ddde-N`, with no point when
there is one digit.
-/

namespace Minifier.Decimal

/-- The decisions of a number format. -/
structure Style where
  /-- the least power of ten of a leading digit that is written positionally -/
  least : Int
  /-- the greatest power of ten of a leading digit that is written positionally -/
  greatest : Int
  /-- a whole number is written with the fraction `.0` -/
  wholeFraction : Bool
  /-- which of two equally near shortest decimals is written -/
  tie : Tie

/-- The digits before and after the point, when `point` digits stand before it. A point at or
left of the first digit has a zero before it. -/
def splitAt (digits : List Char) (point : Int) : List Char × List Char :=
  if point ≤ 0 then (['0'], List.replicate (-point).toNat '0' ++ digits)
  else
    let count := point.toNat
    (digits.take count ++ List.replicate (count - digits.length) '0', digits.drop count)

/-- Positional text. -/
def positional (wholeFraction : Bool) (digits : List Char) (point : Int) : List Char :=
  match splitAt digits point with
  | (whole, []) => if wholeFraction then whole ++ ['.', '0'] else whole
  | (whole, fraction) => whole ++ '.' :: fraction

/-- Text with an exponent. -/
def scientific (digits : List Char) (magnitude : Int) : List Char :=
  let mantissa := match digits with
    | first :: second :: rest => first :: '.' :: second :: rest
    | short => short
  let sign := if 0 ≤ magnitude then '+' else '-'
  mantissa ++ 'e' :: sign :: Nat.toDigits 10 magnitude.natAbs

/-- The text of a positive decimal whose digits and leading power of ten are given. -/
def Style.layout (style : Style) (digits : List Char) (magnitude : Int) : List Char :=
  if style.least ≤ magnitude ∧ magnitude ≤ style.greatest then
    positional style.wholeFraction digits (magnitude + 1)
  else scientific digits magnitude

/-- The text of the positive double `m · 2 ^ e`: its shortest decimal, laid out. -/
def Style.write (style : Style) (m : Nat) (e : Int) : List Char :=
  let d := shortest style.tie m e
  style.layout d.digits d.magnitude

end Minifier.Decimal
