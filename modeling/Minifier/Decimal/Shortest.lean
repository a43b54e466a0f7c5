import Minifier.Double

/-!
# The shortest decimal that reads back as a double

Between a double and its two neighbours lie the reals that round to it. Among the decimals in
that interval there is a least number of digits; `shortest` takes a decimal with that many
digits, the nearest one to the double, and where two are equally near the caller says which.

All comparisons are between natural numbers. A double `m · 2 ^ e` is counted in quarters of its
unit, `4 m · 2 ^ (e - 2)`, so that the ends of its interval are whole numbers of quarters, and a
grid of decimals `c · 10 ^ p` is compared with it after both sides have been multiplied by the
denominators (`Grid`).
-/

namespace Minifier

/-- The decimal number `coefficient · 10 ^ exponent`. -/
structure Decimal where
  coefficient : Nat
  exponent : Int
deriving DecidableEq, Repr

namespace Decimal

/-- The digits of the coefficient. -/
def digits (d : Decimal) : List Char := Nat.toDigits 10 d.coefficient

/-- The power of ten of the leading digit. -/
def magnitude (d : Decimal) : Int := d.exponent + (d.digits.length - 1 : Nat)

/-- Move trailing zeros of the coefficient into the exponent, at most `limit` of them. -/
def trim : Nat → Decimal → Decimal
  | 0, d => d
  | limit + 1, d =>
    if d.coefficient % 10 = 0 ∧ d.coefficient ≠ 0 then
      trim limit ⟨d.coefficient / 10, d.exponent + 1⟩
    else d

/-- What to do when two shortest decimals are equally near. -/
inductive Tie where
  /-- take the greater -/
  | up
  /-- take the one with an even last digit -/
  | even
deriving DecidableEq, Repr

/-- The reals that round to a double, in quarters of its unit `2 ^ exponent`. -/
structure Interval where
  exponent : Int
  low : Nat
  centre : Nat
  high : Nat
  /-- the ends themselves round to the double -/
  closed : Bool

/-- The interval of `m · 2 ^ e`. Below a power of two the neighbour is half as far away, except
at the bottom of the exponent range. A tie between doubles goes to the even mantissa. -/
def Interval.of (m : Nat) (e : Int) : Interval where
  exponent := e - 2
  low := 4 * m - (if m = 0x10000000000000 ∧ -1074 < e then 1 else 2)
  centre := 4 * m
  high := 4 * m + 2
  closed := m % 2 == 0

/-- Scales that make the decimals `c · 10 ^ p` and the quarters `x · 2 ^ q` comparable:
`c · 10 ^ p ≤ x · 2 ^ q` exactly when `c * decimal ≤ x * binary`. -/
structure Grid where
  decimal : Nat
  binary : Nat

/-- The scales for `10 ^ p` and `2 ^ q`. -/
def Grid.of (p q : Int) : Grid where
  decimal := Nat.pow 10 p.toNat <<< (-q).toNat
  binary := Nat.pow 10 (-p).toNat <<< q.toNat

/-- The decimal `c` of the grid lies in the interval. -/
def Interval.contains (i : Interval) (g : Grid) (c : Nat) : Bool :=
  if i.closed then i.low * g.binary ≤ c * g.decimal && c * g.decimal ≤ i.high * g.binary
  else i.low * g.binary < c * g.decimal && c * g.decimal < i.high * g.binary

/-- Of the two decimals `c` and `c + 1` of the grid around the centre, the one that lies in the
interval; of two the nearer, and of two equally near the one that `tie` names. -/
def Interval.choose? (i : Interval) (tie : Tie) (g : Grid) : Option Nat :=
  let c := i.centre * g.binary / g.decimal
  match i.contains g c, i.contains g (c + 1) with
  | false, false => none
  | true, false => some c
  | false, true => some (c + 1)
  | true, true =>
    match compare (2 * (i.centre * g.binary)) ((2 * c + 1) * g.decimal), tie with
    | .lt, _ => some c
    | .gt, _ => some (c + 1)
    | .eq, .up => some (c + 1)
    | .eq, .even => some (c + c % 2)

/-- The power of ten of the leading digit of `m · 2 ^ e`, for a positive `m`. -/
def leadingPower (m : Nat) (e : Int) : Int :=
  match e with
  | .ofNat k => (Nat.toDigits 10 (m <<< k)).length - 1
  | .negSucc k =>
    let unit := 1 <<< (k + 1)
    if unit ≤ m then (Nat.toDigits 10 (m / unit)).length - 1
    else
      let count := (Nat.toDigits 10 (unit / m)).length
      if m * Nat.pow 10 (count - 1) = unit then 1 - count else -count

/-- A double has at most this many digits. -/
def mostDigits : Nat := 17

/-- The shortest decimal that reads back as the double `m · 2 ^ e`, nearest to it. -/
def shortest (tie : Tie) (m : Nat) (e : Int) : Decimal :=
  let interval := Interval.of m e
  let lead := leadingPower m e
  let found := (List.range mostDigits).findSome? fun (extra : Nat) =>
    let p := lead - extra
    (interval.choose? tie (Grid.of p interval.exponent)).map fun c => (⟨c, p⟩ : Decimal)
  (found.getD ⟨0, 0⟩).trim (mostDigits + 1)

end Decimal

end Minifier
