/-!
# A keyed stream of words

The stream of 32-bit words that decides in which order letters are used. It is the output of the
ChaCha block function with twelve rounds, block after block, under a key that is expanded from a
64-bit seed. A word of the stream is known by its place alone (`Stream.word`).
-/

namespace Minifier.Naming

/-- The key of a stream: eight words. -/
abbrev Key := Vector UInt32 8

namespace Stream

/-! ### The key of a seed -/

/-- A word rotated to the left. -/
def rotateLeft (x : UInt32) (count : UInt32) : UInt32 :=
  (x <<< count) ||| (x >>> (32 - count))

/-- A word rotated to the right. -/
def rotateRight (x : UInt32) (count : UInt32) : UInt32 :=
  (x >>> count) ||| (x <<< ((32 - count) % 32))

/-- The next state of the expansion. -/
def advance (state : UInt64) : UInt64 := state * 6364136223846793005 + 11634580027462260723

/-- The word that a state of the expansion gives. -/
def output (state : UInt64) : UInt32 :=
  rotateRight (((state >>> 18) ^^^ state) >>> 27).toUInt32 (state >>> 59).toUInt32

/-- The key of a seed: the outputs of its first eight successors. -/
def key (seed : UInt64) : Key := Vector.ofFn fun i => output (Nat.repeat advance (i + 1) seed)

/-! ### The block function -/

/-- The state of a block: sixteen words. -/
abbrev State := Vector UInt32 16

/-- Add one word of a state to another, mix the sum into a third, and rotate that. -/
def mix (s : State) (a b d : Fin 16) (count : UInt32) : State :=
  let sum := s[a] + s[b]
  (s.set a sum).set d (rotateLeft (s[d] ^^^ sum) count)

/-- A quarter round on four words of a state. -/
def quarterRound (s : State) (a b c d : Fin 16) : State :=
  let s := mix s a b d 16
  let s := mix s c d b 12
  let s := mix s a b d 8
  mix s c d b 7

/-- Two rounds: the columns, and the diagonals. -/
def doubleRound (s : State) : State :=
  let s := quarterRound s 0 4 8 12
  let s := quarterRound s 1 5 9 13
  let s := quarterRound s 2 6 10 14
  let s := quarterRound s 3 7 11 15
  let s := quarterRound s 0 5 10 15
  let s := quarterRound s 1 6 11 12
  let s := quarterRound s 2 7 8 13
  quarterRound s 3 4 9 14

/-- The state that a block starts from: constants, the key, and the number of the block. -/
def start (k : Key) (block : Nat) : State :=
  #v[0x61707865, 0x3320646e, 0x79622d32, 0x6b206574,
     k[0], k[1], k[2], k[3], k[4], k[5], k[6], k[7],
     UInt32.ofNat block, UInt32.ofNat (block / 0x100000000), 0, 0]

/-- The words of a block. -/
def block (k : Key) (number : Nat) : State :=
  let s := start k number
  Vector.zipWith (· + ·) (Nat.repeat doubleRound 6 s) s

/-- The word at a place of the stream. -/
def word (k : Key) (place : Nat) : UInt32 :=
  (block k (place / 16)).get ⟨place % 16, Nat.mod_lt _ (by decide)⟩

end Stream

end Minifier.Naming
