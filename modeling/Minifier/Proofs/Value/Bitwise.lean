import Minifier.Proofs.Value.Double
import Minifier.Value.Operator

/-!
# Operators on words

The operators on bits take the low 32 bits of their operands. Here they are compared with the operations of
the integers, which have infinitely many bits in two's complement (`Int.testBit`). The words of two integers
are combined bit by bit as the integers are (`ofInt_lor` and its siblings), so that the result of an operator
is the integer of 32 bits that is congruent to the result on the whole integers (`Int.bmod`).

The main statement is `bitwise_modular`, for all doubles that are integers.
-/

namespace Minifier

/-! ## The word of an integer -/

namespace Double

/-- An integer has no fraction to be cut off. -/
theorem truncate?_of_integer? {x : Float} {i : Int} (h : integer? x = some i) :
    truncate? x = some i := by
  unfold integer? at h
  unfold truncate?
  cases hparts : parts x with
  | notANumber => simp [hparts] at h
  | infinity s => simp [hparts] at h
  | zero s => simpa [hparts] using h
  | finite s m e hm =>
      simp only [hparts] at h ⊢
      cases e with
      | ofNat k => exact h
      | negSucc k =>
          dsimp only at h
          split at h
          · exact h
          · cases h

theorem toBitVec_word32 {x : Float} {i : Int} (h : integer? x = some i) :
    (word32 x).toBitVec = BitVec.ofInt 32 i := by
  apply BitVec.eq_of_toNat_eq
  have hmod := Int.emod_nonneg i (show (4294967296 : Int) ≠ 0 by decide)
  have hlt := Int.emod_lt_of_pos i (show (0 : Int) < 4294967296 by decide)
  simp only [word32, truncate?_of_integer? h, UInt32.toBitVec_ofNat', BitVec.toNat_ofNat,
    BitVec.toNat_ofInt]
  show (i % 4294967296).toNat % 2 ^ 32 = (i % 4294967296).toNat
  omega

theorem signed_eq_toInt (w : UInt32) : signed w = w.toBitVec.toInt := by
  have hlt := w.toNat_lt
  have hword : w.toBitVec.toNat = w.toNat := rfl
  rw [BitVec.toInt_eq_toNat_bmod, Int.bmod_eq_emod, hword]
  unfold signed
  split <;> split <;> omega

end Double

/-! ## Bits -/

section Bits

variable {w : Nat}

/-- The word of an integer has the lowest of the bits that the integer has. -/
@[simp] theorem getElem_ofInt (x : Int) {i : Nat} (hi : i < w) :
    (BitVec.ofInt w x)[i] = x.testBit i := by
  have hnat : ∀ n, (BitVec.ofNat w n)[i] = n.testBit i := by
    intro n
    simp [BitVec.getElem_eq_testBit_toNat, hi]
  cases x with
  | ofNat n => simp [Int.testBit, hnat]
  | negSucc n => simp [Int.testBit, BitVec.ofInt_negSucc_eq_not_ofNat, hnat]

theorem ofInt_lor (x y : Int) : BitVec.ofInt w (x.lor y) = BitVec.ofInt w x ||| BitVec.ofInt w y := by
  apply BitVec.eq_of_getElem_eq
  intro i hi
  simp [Int.testBit_lor]

theorem ofInt_land (x y : Int) :
    BitVec.ofInt w (x.land y) = BitVec.ofInt w x &&& BitVec.ofInt w y := by
  apply BitVec.eq_of_getElem_eq
  intro i hi
  simp [Int.testBit_land]

theorem ofInt_xor (x y : Int) : BitVec.ofInt w (x.xor y) = BitVec.ofInt w x ^^^ BitVec.ofInt w y := by
  apply BitVec.eq_of_getElem_eq
  intro i hi
  simp [Int.testBit_lxor]

theorem ofInt_lnot (x : Int) : BitVec.ofInt w x.lnot = ~~~BitVec.ofInt w x := by
  apply BitVec.eq_of_getElem_eq
  intro i hi
  simp [Int.testBit_lnot]

theorem ofInt_mul_two_pow (x : Int) (k : Nat) :
    BitVec.ofInt w (x * 2 ^ k) = BitVec.ofInt w x <<< k := by
  have hpower : BitVec.ofInt w (2 ^ k) = BitVec.twoPow w k := by
    apply BitVec.eq_of_toNat_eq
    rw [BitVec.toNat_twoPow, ← Nat.cast_ofNat, ← Nat.cast_pow, BitVec.ofInt_natCast, BitVec.toNat_ofNat]
  rw [BitVec.ofInt_mul, hpower, BitVec.shiftLeft_eq_mul_twoPow]

end Bits

/-! ## The operators -/

namespace Value

open Double (integer? integer?_ofInt word32 toBitVec_word32 signed signed_eq_toInt)

/-- The result is an integer between bounds, held exactly by its double. -/
structure IsInteger (low high : Int) (result : Option Value) (r : Int) : Prop where
  eq : result = some (.number (Float.ofInt r))
  exact : integer? (Float.ofInt r) = some r
  low_le : low ≤ r
  lt_high : r < high

theorem isInteger_of_bounds {low high r : Int} {result : Option Value}
    (heq : result = some (.number (Float.ofInt r))) (hlow : low ≤ r) (hhigh : r < high)
    (hsafe : -2 ^ 53 < low ∧ high ≤ 2 ^ 53) : IsInteger low high result r := by
  refine ⟨heq, integer?_ofInt ?_, hlow, hhigh⟩
  omega

/-- The number of a word is the integer of 32 bits that is congruent to any integer with that word. -/
theorem ofSigned_eq {u : UInt32} {r : Int} (h : u.toBitVec = BitVec.ofInt 32 r) :
    ofSigned u = .number (Float.ofInt (r.bmod (2 ^ 32))) := by
  rw [ofSigned, signed_eq_toInt, h, BitVec.toInt_ofInt]

theorem bmod_bounds (r : Int) : -2 ^ 31 ≤ r.bmod (2 ^ 32) ∧ r.bmod (2 ^ 32) < 2 ^ 31 :=
  ⟨Int.le_bmod (by decide), Int.bmod_lt (by decide)⟩

theorem isInteger_ofSigned {u : UInt32} {r : Int} (h : u.toBitVec = BitVec.ofInt 32 r) :
    IsInteger (-2 ^ 31) (2 ^ 31) (some (ofSigned u)) (r.bmod (2 ^ 32)) := by
  obtain ⟨hlow, hhigh⟩ := bmod_bounds r
  exact isInteger_of_bounds (by rw [ofSigned_eq h]) hlow hhigh (by decide)

theorem toNat_shiftCount {g : Float} {y : Int} (hg : integer? g = some y) :
    (shiftCount (.number g)).toNat = (y % 32).toNat := by
  have hword : (word32 g).toNat = (y % (2 ^ 32 : Nat)).toNat := by
    rw [← BitVec.toNat_ofInt, ← toBitVec_word32 hg]
    rfl
  show (word32 g % 32).toNat = _
  rw [UInt32.toNat_mod, hword]
  show (y % (2 ^ 32 : Nat)).toNat % 32 = _
  omega

/-- Division by a power of two does not leave an interval around zero. -/
theorem ediv_two_pow_bounds {b low high : Int} (hlow : low ≤ b) (hhigh : b < high)
    (hzero : low ≤ 0 ∧ 0 < high) (k : Nat) : low ≤ b / 2 ^ k ∧ b / 2 ^ k < high := by
  have hpos : (0 : Int) < 2 ^ k := by positivity
  rw [Int.le_ediv_iff_mul_le hpos, Int.ediv_lt_iff_lt_mul hpos]
  constructor <;> nlinarith

section Operands

variable {f g : Float} {x y : Int}

theorem toBitVec_shiftLeft_word (hf : integer? f = some x) (hg : integer? g = some y) :
    (word (.number f) <<< shiftCount (.number g)).toBitVec
      = BitVec.ofInt 32 (x * 2 ^ (y % 32).toNat) := by
  have hcount := toNat_shiftCount hg
  have hplaces : ((shiftCount (.number g)).toBitVec % 32).toNat = (y % 32).toNat := by
    show (shiftCount (.number g)).toNat % 32 = _
    omega
  have hword : (word (.number f)).toBitVec = BitVec.ofInt 32 x := toBitVec_word32 hf
  rw [UInt32.toBitVec_shiftLeft, hword, BitVec.shiftLeft_eq', hplaces, ofInt_mul_two_pow]

theorem shiftRightSigned_word (hf : integer? f = some x) (hg : integer? g = some y) :
    shiftRightSigned (word (.number f)) (shiftCount (.number g))
      = x.bmod (2 ^ 32) / 2 ^ (y % 32).toNat := by
  have hword : signed (word (.number f)) = x.bmod (2 ^ 32) := by
    rw [signed_eq_toInt, show (word (.number f)).toBitVec = _ from toBitVec_word32 hf, BitVec.toInt_ofInt]
  rw [shiftRightSigned, hword, toNat_shiftCount hg, Nat.one_shiftLeft, Nat.cast_pow, Nat.cast_ofNat]

theorem toNat_shiftRight_word (hf : integer? f = some x) (hg : integer? g = some y) :
    ((word (.number f) >>> shiftCount (.number g)).toNat : Int)
      = x % 2 ^ 32 / 2 ^ (y % 32).toNat := by
  have hcount := toNat_shiftCount hg
  have hplaces : (shiftCount (.number g)).toNat % 32 = (y % 32).toNat := by omega
  have hword : ((word (.number f)).toNat : Int) = x % 2 ^ 32 := by
    have hbits := congrArg BitVec.toNat (toBitVec_word32 hf)
    rw [BitVec.toNat_ofInt] at hbits
    show ((word32 f).toBitVec.toNat : Int) = _
    omega
  rw [UInt32.toNat_shiftRight, hplaces, Nat.shiftRight_eq_div_pow, Int.natCast_ediv, hword, Nat.cast_pow,
    Nat.cast_ofNat]

/-- The operators on bits read nothing but the words of their operands. -/
theorem word_congr {f' : Float} {x' : Int} (hf : integer? f = some x) (hf' : integer? f' = some x')
    (h : x' ≡ x [ZMOD 2 ^ 32]) : word (.number f') = word (.number f) := by
  apply UInt32.toBitVec_inj.mp
  show (word32 f').toBitVec = (word32 f).toBitVec
  rw [toBitVec_word32 hf', toBitVec_word32 hf]
  apply BitVec.eq_of_toNat_eq
  rw [BitVec.toNat_ofInt, BitVec.toNat_ofInt]
  exact congrArg Int.toNat h

/-- The operators on bits. -/
def bitwiseOperators : List BinaryOperator :=
  [.bitOr, .bitAnd, .bitXor, .shiftLeft, .shiftRight, .shiftRightZero]

/-- **Operators on bits are arithmetic modulo `2 ^ 32`.** Of two doubles that are the integers `x` and `y`, each
operator makes the integer that the same operation makes of the bits of `x` and `y`, reduced to 32 bits in two's
complement. Shifts go by `y` modulo 32 places: to the left they multiply, to the right they divide the signed
integer, or the unsigned one, and round down. Integers that are congruent have the same results. -/
theorem bitwise_modular (hf : integer? f = some x) (hg : integer? g = some y) :
    IsInteger (-2 ^ 31) (2 ^ 31) (unary? .complement (.number f)) (x.lnot.bmod (2 ^ 32)) ∧
    IsInteger (-2 ^ 31) (2 ^ 31) (binary? .bitOr (.number f) (.number g)) ((x.lor y).bmod (2 ^ 32)) ∧
    IsInteger (-2 ^ 31) (2 ^ 31) (binary? .bitAnd (.number f) (.number g)) ((x.land y).bmod (2 ^ 32)) ∧
    IsInteger (-2 ^ 31) (2 ^ 31) (binary? .bitXor (.number f) (.number g)) ((x.xor y).bmod (2 ^ 32)) ∧
    IsInteger (-2 ^ 31) (2 ^ 31) (binary? .shiftLeft (.number f) (.number g))
      ((x * 2 ^ (y % 32).toNat).bmod (2 ^ 32)) ∧
    IsInteger (-2 ^ 31) (2 ^ 31) (binary? .shiftRight (.number f) (.number g))
      (x.bmod (2 ^ 32) / 2 ^ (y % 32).toNat) ∧
    IsInteger 0 (2 ^ 32) (binary? .shiftRightZero (.number f) (.number g))
      (x % 2 ^ 32 / 2 ^ (y % 32).toNat) ∧
    ∀ {f' g' : Float} {x' y' : Int}, integer? f' = some x' → integer? g' = some y' →
      x' ≡ x [ZMOD 2 ^ 32] → y' ≡ y [ZMOD 2 ^ 32] →
        unary? .complement (.number f') = unary? .complement (.number f) ∧
        ∀ operator ∈ bitwiseOperators,
          binary? operator (.number f') (.number g') = binary? operator (.number f) (.number g) := by
  have hx : (word (.number f)).toBitVec = BitVec.ofInt 32 x := toBitVec_word32 hf
  have hy : (word (.number g)).toBitVec = BitVec.ofInt 32 y := toBitVec_word32 hg
  refine ⟨?_, ?_, ?_, ?_, ?_, ?_, ?_, ?_⟩
  · apply isInteger_ofSigned
    rw [UInt32.toBitVec_not, hx, ofInt_lnot]
  · apply isInteger_ofSigned
    rw [UInt32.toBitVec_or, hx, hy, ofInt_lor]
  · apply isInteger_ofSigned
    rw [UInt32.toBitVec_and, hx, hy, ofInt_land]
  · apply isInteger_ofSigned
    rw [UInt32.toBitVec_xor, hx, hy, ofInt_xor]
  · apply isInteger_ofSigned
    exact toBitVec_shiftLeft_word hf hg
  · obtain ⟨hlow, hhigh⟩ := bmod_bounds x
    obtain ⟨hlow, hhigh⟩ := ediv_two_pow_bounds hlow hhigh (by decide) (y % 32).toNat
    refine isInteger_of_bounds ?_ hlow hhigh (by decide)
    rw [← shiftRightSigned_word hf hg]
    rfl
  · have hlow := Int.emod_nonneg x (show (2 ^ 32 : Int) ≠ 0 by decide)
    have hhigh := Int.emod_lt_of_pos x (show (0 : Int) < 2 ^ 32 by decide)
    obtain ⟨hlow, hhigh⟩ := ediv_two_pow_bounds hlow hhigh (by decide) (y % 32).toNat
    refine isInteger_of_bounds ?_ hlow hhigh (by decide)
    rw [← toNat_shiftRight_word hf hg]
    rfl
  · intro f' g' x' y' hf' hg' hxx' hyy'
    have hwx := word_congr hf hf' hxx'
    have hwy := word_congr hg hg' hyy'
    constructor
    · simp [unary?, applyUnary, isPrimitive, hwx]
    · intro operator hoperator
      fin_cases hoperator <;> simp [binary?, applyBinary, isPrimitive, shiftCount, hwx, hwy]

end Operands

/-- A negative integer of 53 bits with the word of -5, and a count of more than 32 bits that stands for three
places. -/
theorem bitwise_modular_negative :
    integer? (Float.ofInt (-2 ^ 52 - 5)) = some (-2 ^ 52 - 5) ∧
    integer? (Float.ofInt (2 ^ 32 + 35)) = some (2 ^ 32 + 35) ∧
    binary? .bitXor (.number (Float.ofInt (-2 ^ 52 - 5))) (.number (Float.ofInt (2 ^ 32 + 35)))
      = some (.number (Float.ofInt (-40))) ∧
    binary? .shiftRight (.number (Float.ofInt (-2 ^ 52 - 5))) (.number (Float.ofInt (2 ^ 32 + 35)))
      = some (.number (Float.ofInt (-1))) ∧
    binary? .shiftRightZero (.number (Float.ofInt (-2 ^ 52 - 5))) (.number (Float.ofInt (2 ^ 32 + 35)))
      = some (.number (Float.ofInt 536870911)) := by
  have hf : integer? (Float.ofInt (-2 ^ 52 - 5)) = some (-2 ^ 52 - 5) := integer?_ofInt (by decide)
  have hg : integer? (Float.ofInt (2 ^ 32 + 35)) = some (2 ^ 32 + 35) := integer?_ofInt (by decide)
  obtain ⟨-, -, -, hxor, -, hsigned, hunsigned, -⟩ := bitwise_modular hf hg
  exact ⟨hf, hg, hxor.eq, hsigned.eq, hunsigned.eq⟩

end Value

end Minifier
