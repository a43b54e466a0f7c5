import Minifier.Name
import Minifier.Naming.Alphabet

/-!
# Symbols

The names that the mangler hands out: over an alphabet all words of one letter, then all of two letters,
and so on, each length in the order of the alphabet. `spell` numbers these words from zero.
A `Generator` goes through them, and passes over those that are reserved or taken.
-/

namespace Minifier.Naming

/-- The word with a number: its last letter has the number's remainder by the size of the alphabet, and the
letters before it spell the quotient less one. -/
def spell (alphabet : List Char) (n : Nat) : List Char :=
  if n = 0 ∨ n < alphabet.length then alphabet[n]?.toList
  else spell alphabet (n / alphabet.length - 1) ++ alphabet[n % alphabet.length]?.toList
termination_by n
decreasing_by
  have := Nat.div_le_self n alphabet.length
  omega

/-- A sequence of symbols, and how many of them were used. -/
structure Generator where
  alphabet : List Char
  used : Nat

namespace Generator

/-- The generator of a seed. -/
def ofSeed (seed : UInt64) : Generator := ⟨Naming.alphabet seed, 0⟩

/-- The next symbol. -/
def symbol (g : Generator) : String := String.ofList (spell g.alphabet g.used)

/-- The generator after its next symbol. -/
def skip (g : Generator) : Generator := { g with used := g.used + 1 }

/-- The first symbol with a property among the next `tries`, and the generator after it. -/
def find? (g : Generator) (p : String → Bool) : Nat → Option (String × Generator)
  | 0 => none
  | tries + 1 => if p g.symbol then some (g.symbol, g.skip) else g.skip.find? p tries

/-- The first symbol among the next `tries` that is neither reserved nor taken. -/
def available? (g : Generator) (taken : String → Bool) (tries : Nat) :
    Option (String × Generator) :=
  g.find? (fun s => !Name.isReserved s && !taken s) tries

end Generator

end Minifier.Naming
