import Minifier.Naming.Stream

/-!
# The alphabet of a seed

The 52 letters in an order that a seed decides. Letter after letter is swapped with one at or
before its place, drawn from the stream of the seed. To spare the stream, several draws are made at
once: a number below `k · (k + 1) ⋯ (k + j)` holds one draw for each factor.
-/

namespace Minifier.Naming

/-- All letters, in their usual order. -/
def letters : List Char := "abcdefghijklmnopqrstuvwxyzABCDEFGHIJKLMNOPQRSTUVWXYZ".toList

/-- A number below a bound, and the place of the stream after it. The product of a word and the
bound is read as a number with 32 binary places. Its whole part is the draw. If its fraction is so great
that further places could carry into it, a second word supplies them. -/
def below (key : Key) (place : Nat) (bound : Nat) : Nat × Nat :=
  let product := (Stream.word key place).toNat * bound
  let whole := product / 0x100000000
  let fraction := product % 0x100000000
  if fraction > 0x100000000 - bound then
    let more := (Stream.word key (place + 1)).toNat * bound / 0x100000000
    (if fraction + more ≥ 0x100000000 then whole + 1 else whole, place + 2)
  else (whole, place + 1)

/-- Multiply successive factors onto a product as long as it stays below `2 ^ 32`: the product, and how
many factors it has. As no factor is below two, 32 `steps` suffice. -/
def gather : (steps product factor count : Nat) → Nat × Nat
  | 0, product, _, count => (product, count)
  | steps + 1, product, factor, count =>
    if product * factor < 0x100000000 then gather steps (product * factor) (factor + 1) (count + 1)
    else (product, count)

/-- Draws on the way through an alphabet. -/
structure Draws where
  /-- the place of the stream -/
  place : Nat
  /-- a number that holds the draws that are left -/
  chunk : Nat
  /-- how many draws are left -/
  left : Nat

/-- Before the first draw, whose only outcome is zero. -/
def Draws.first : Draws := ⟨0, 0, 1⟩

/-- A number below `k`, and the draws after it. -/
def Draws.next (key : Key) (d : Draws) (k : Nat) : Nat × Draws :=
  let d : Draws :=
    if d.left = 0 then
      let (bound, count) := gather 32 k (k + 1) 1
      let (chunk, place) := below key d.place bound
      ⟨place, chunk, count⟩
    else d
  if d.left ≤ 1 then (d.chunk, { d with left := 0 })
  else (d.chunk % k, { d with chunk := d.chunk / k, left := d.left - 1 })

/-- Go through the places `i`, `i + 1`, … of an alphabet, `count` of them, and swap each with one drawn
from those up to it. -/
def shuffleFrom (key : Key) (letters : Array Char) (draws : Draws) (i : Nat) : Nat → List Char
  | 0 => letters.toList
  | count + 1 =>
    let (j, draws) := draws.next key (i + 1)
    shuffleFrom key (letters.swapIfInBounds i j) draws (i + 1) count

/-- The alphabet of a seed. -/
def alphabet (seed : UInt64) : List Char :=
  shuffleFrom (Stream.key seed) letters.toArray .first 0 letters.length

end Minifier.Naming
