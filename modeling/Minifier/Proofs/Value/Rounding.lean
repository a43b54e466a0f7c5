import Minifier.Decimal.Numeral
import Minifier.Proofs.Value.Double

/-!
# Rounding to doubles

A decimal always becomes a number (`isNaN_ofScientific`): it is the product or the quotient of two finite
doubles, the second of which is not zero, or it is rounded from its digits.

A natural number of 64 bits becomes the double nearest to it (`isNearest_ofNat`). The argument goes through the
bits that are shifted out of a mantissa.

* The last of them, and whether there is anything below it, decide the rounding (`repeat_shiftRightOne_succ`).
  That is enough to round the quotient to the nearest integer, the even one of two (`roundsTo_repeat`).
* What is nearest among the multiples of a power of two is nearest among all doubles, because a double that is no
  multiple lies below all of those with 53 bits (`nearest_of_roundsTo`).
-/

namespace Minifier.Double

open Float.Model (Format UnpackedFloat totalExponent)
open Float.Model.UnpackedFloat

/-! ## What is no number -/

theorem isNaN_unpack_packComponents {s : Sign} {exponent : BitVec 11} (mantissa : BitVec 52)
    (h : exponent ≠ -1#11) :
    (UnpackedFloat.unpack Format.binary64 (packComponents Format.binary64 s exponent mantissa)).isNaN
      = false := by
  unfold UnpackedFloat.unpack
  simp only [unpackExponent_packComponents, unpackMantissa_packComponents, unpackSign_packComponents]
  rw [if_neg h]
  split
  · split <;> rfl
  · rfl

/-- Packing does not turn a number into none. -/
theorem isNaN_unpack_pack {u : UnpackedFloat} (h : u.isNaN = false) :
    (Float.Model.pack u).unpack.isNaN = false := by
  show (UnpackedFloat.unpack Format.binary64 (UnpackedFloat.pack Format.binary64 u)).isNaN = false
  cases u with
  | notANumber => cases h
  | infinity s => cases s <;> rfl
  | zero s => cases s <;> rfl
  | finite s m e hm =>
      unfold UnpackedFloat.pack
      dsimp only
      split
      · cases s <;> rfl
      · rename_i hfits
        split
        · apply isNaN_unpack_packComponents
          intro hones
          have hones := congrArg BitVec.toNat hones
          simp only [BitVec.toNat_ofNat, BitVec.toNat_neg] at hones
          omega
        · exact isNaN_unpack_packComponents _ (by decide)

theorem isNaN_roundWithAccuracy (s : Sign) (m : Nat) (e : Int) (accuracy : Accuracy) :
    (roundWithAccuracy Format.binary64 s m e accuracy).isNaN = false := by
  unfold roundWithAccuracy
  dsimp only
  split <;> rfl

/-- The powers of ten that doubles hold exactly. -/
theorem integer?_powerOfTen : ∀ e : Fin 23,
    integer? Float.exactlyRepresentablePowersOfTen[e] = some (10 ^ e.val) := by
  decide

theorem parts_of_integer? {x : Float} {i : Int} (h : integer? x = some i) (hi : i ≠ 0) :
    ∃ s m e hm, parts x = .finite s m e hm := by
  unfold integer? at h
  cases hparts : parts x with
  | finite s m e hm => exact ⟨s, m, e, hm, rfl⟩
  | zero s =>
      rw [hparts] at h
      exact absurd (Option.some.inj h).symm hi
  | infinity s => rw [hparts] at h; cases h
  | notANumber => rw [hparts] at h; cases h

theorem isFinite_toFloat {n : Nat} (hbits : n < 2 ^ 53) : (parts n.toUInt64.toFloat).isFinite = true := by
  rcases Nat.eq_zero_or_pos n with rfl | hn
  · rfl
  · rw [parts_toFloat hn hbits]
    rfl

theorem isNaN_mul_finite {u : UnpackedFloat} (hu : u.isFinite = true) (s : Sign) (m : Nat) (e : Int)
    (hm : 0 < m) : (UnpackedFloat.mul Format.binary64 u (.finite s m e hm)).isNaN = false := by
  cases u with
  | zero t => rfl
  | finite t n f hn => exact isNaN_roundWithAccuracy _ _ _ _
  | infinity t => cases hu
  | notANumber => cases hu

theorem isNaN_div_finite {u : UnpackedFloat} (hu : u.isFinite = true) (s : Sign) (m : Nat) (e : Int)
    (hm : 0 < m) : (UnpackedFloat.div Format.binary64 u (.finite s m e hm)).isNaN = false := by
  cases u with
  | zero t => rfl
  | finite t n f hn => exact isNaN_roundWithAccuracy _ _ _ _
  | infinity t => cases hu
  | notANumber => cases hu

theorem isNaN_ofScientific_model (m : Nat) (e : Int) :
    (UnpackedFloat.ofScientific Format.binary64 m e).isNaN = false := by
  unfold UnpackedFloat.ofScientific
  split
  · rfl
  · rename_i hm
    split
    · rfl
    split
    · rfl
    split
    · exact isNaN_mul_finite (u := .finite ..) rfl _ _ _ _
    · exact isNaN_div_finite (u := .finite ..) rfl _ _ _ _

/-- The double of a decimal is a number. -/
theorem isNaN_ofScientific (m : Nat) (negative : Bool) (e : Nat) :
    (Float.ofScientific m negative e).isNaN = false := by
  unfold Float.ofScientific
  split
  · rename_i hsmall
    have he : e < 23 := Nat.lt_succ_of_le hsmall.2
    have hpower : ((10 : Int) ^ e) ≠ 0 := pow_ne_zero e (by decide)
    obtain ⟨s, p, f, hp, hparts⟩ := parts_of_integer? (integer?_powerOfTen ⟨e, he⟩) hpower
    have hm := isFinite_toFloat hsmall.1
    dsimp only
    split
    · have hdiv := isNaN_unpack_pack (isNaN_div_finite hm s p f hp)
      rw [← hparts] at hdiv
      exact hdiv
    · have hmul := isNaN_unpack_pack (isNaN_mul_finite hm s p f hp)
      rw [← hparts] at hmul
      exact hmul
  · exact isNaN_unpack_pack (isNaN_ofScientific_model _ _)

/-! ## Nearest doubles -/

/-- The number that a finite double is. -/
def value? (x : Float) : Option ℚ :=
  match parts x with
  | .zero _ => some 0
  | .finite s m e _ => some (s.apply m * 2 ^ e)
  | .infinity _ | .notANumber => none

/-- The last bit of the mantissa is not set. -/
def isEven (x : Float) : Bool :=
  match parts x with
  | .finite _ m _ _ => m % 2 == 0
  | _ => true

/-- No double is nearer to the number, and where another one is as near, this one is even. -/
def IsNearest (q : ℚ) (x : Float) : Prop :=
  ∃ v, value? x = some v ∧ ∀ y w, value? y = some w →
    |v - q| ≤ |w - q| ∧ (|w - q| = |v - q| → w = v ∨ isEven x = true)

/-- What is shifted out of a mantissa: the last bit of it, and whether there is anything below that bit. -/
theorem repeat_shiftRightOne_succ (m j : Nat) :
    (j + 1).repeat ExtendedMantissa.shiftRightOne ⟨m, false, false⟩
      = ⟨m / 2 ^ (j + 1), m / 2 ^ j % 2 != 0, m % 2 ^ j != 0⟩ := by
  induction j with
  | zero => simp [Nat.repeat, ExtendedMantissa.shiftRightOne, Nat.mod_one]
  | succ j ih =>
      have hmod : m % 2 ^ (j + 1) = m % 2 ^ j + 2 ^ j * (m / 2 ^ j % 2) := Nat.mod_pow_succ
      have hsticky : (m / 2 ^ j % 2 != 0 || m % 2 ^ j != 0) = (m % 2 ^ (j + 1) != 0) := by
        rw [Bool.eq_iff_iff, hmod]
        have := Nat.two_pow_pos j
        simp only [Bool.or_eq_true, bne_iff_ne, ne_eq, Nat.add_eq_zero_iff, Nat.mul_eq_zero]
        omega
      rw [Nat.repeat, ih]
      simp only [ExtendedMantissa.shiftRightOne, hsticky, Nat.div_div_eq_div_mul, ← Nat.pow_succ]

/-- The integer is the one nearest to the number, the even one of two. -/
def RoundsTo (q : ℚ) (r : ℤ) : Prop := |r - q| ≤ 1 / 2 ∧ (|r - q| = 1 / 2 → Even r)

theorem RoundsTo.nearest {q : ℚ} {r : ℤ} (h : RoundsTo q r) (i : ℤ) :
    |r - q| ≤ |i - q| ∧ (|i - q| = |r - q| → i = r ∨ Even r) := by
  by_cases hir : i = r
  · subst hir
    exact ⟨le_refl _, fun _ => .inl rfl⟩
  · -- Two integers are at least one apart, so that the number cannot be near to both.
    have hint : (1 : ℤ) ≤ |i - r| := Int.one_le_abs (sub_ne_zero.mpr hir)
    have hapart : (1 : ℚ) ≤ |(i : ℚ) - r| := by exact_mod_cast hint
    have htriangle : |(i : ℚ) - r| ≤ |i - q| + |r - q| := by
      rw [abs_sub_comm (r : ℚ) q]
      exact abs_sub_le _ _ _
    obtain ⟨hhalf, heven⟩ := h
    refine ⟨by linarith, fun htie => .inr (heven ?_)⟩
    linarith

/-- Rounding by the bits that were shifted out: `a + b / 2 + t`, where `b` is the last of them and `t` stands for
those below. -/
theorem roundsTo_roundedMantissa {a b c : Nat} {t : ℚ} (hb : b < 2) (hlow : 0 ≤ t) (hhigh : t < 1 / 2)
    (hzero : c = 0 ↔ t = 0) :
    RoundsTo (a + b / 2 + t) (ExtendedMantissa.mk a (b != 0) (c != 0)).roundedMantissa := by
  unfold RoundsTo
  by_cases hc : c = 0
  · have ht := hzero.mp hc
    subst hc ht
    interval_cases b
    · have hrounded : (ExtendedMantissa.mk a (0 != 0) (0 != 0)).roundedMantissa = a := rfl
      rw [hrounded]
      simp
    · -- Halfway between two integers, the even one of which is taken.
      have hrounded : (ExtendedMantissa.mk a (1 != 0) (0 != 0)).roundedMantissa = a + a % 2 := rfl
      have heven : Even (a + a % 2) := by rw [Nat.even_iff]; omega
      rw [hrounded]
      refine ⟨?_, fun _ => by exact_mod_cast heven⟩
      rcases Nat.mod_two_eq_zero_or_one a with h | h
      · rw [h, abs_le]; constructor <;> push_cast <;> linarith
      · rw [h, abs_le]; constructor <;> push_cast <;> linarith
  · have ht : 0 < t := lt_of_le_of_ne hlow (fun h => hc (hzero.mpr h.symm))
    have hsticky : (c != 0) = true := by simpa using hc
    rw [hsticky]
    interval_cases b
    · have hrounded : (ExtendedMantissa.mk a (0 != 0) true).roundedMantissa = a := rfl
      have hdiff : ((a : ℤ) : ℚ) - (a + (0 : Nat) / 2 + t) = -t := by push_cast; ring
      rw [hrounded, hdiff, abs_neg, abs_of_pos ht]
      exact ⟨hhigh.le, fun h => absurd h hhigh.ne⟩
    · have hrounded : (ExtendedMantissa.mk a (1 != 0) true).roundedMantissa = a + 1 := rfl
      have hdiff : (((a + 1 : Nat) : ℤ) : ℚ) - (a + (1 : Nat) / 2 + t) = 1 / 2 - t := by push_cast; ring
      rw [hrounded, hdiff, abs_of_pos (by linarith)]
      exact ⟨by linarith, fun h => absurd h (by linarith)⟩

/-- Shifting a mantissa out and rounding what is left is rounding the quotient. -/
theorem roundsTo_repeat (m k : Nat) :
    RoundsTo (m / 2 ^ k) (k.repeat ExtendedMantissa.shiftRightOne ⟨m, false, false⟩).roundedMantissa := by
  cases k with
  | zero =>
      have hrounded : (Nat.repeat ExtendedMantissa.shiftRightOne 0 ⟨m, false, false⟩).roundedMantissa = m := rfl
      rw [hrounded]
      simp [RoundsTo]
  | succ j =>
      have hquotient : m / 2 ^ j = 2 * (m / 2 ^ (j + 1)) + m / 2 ^ j % 2 := by
        rw [Nat.pow_succ, ← Nat.div_div_eq_div_mul]
        omega
      have hm : (m : ℚ) = (2 * (m / 2 ^ (j + 1) : Nat) + (m / 2 ^ j % 2 : Nat)) * 2 ^ j + (m % 2 ^ j : Nat) := by
        have := (Nat.div_add_mod' m (2 ^ j)).symm
        rw [hquotient] at this
        exact_mod_cast this
      have hvalue : (m : ℚ) / 2 ^ (j + 1)
          = (m / 2 ^ (j + 1) : Nat) + (m / 2 ^ j % 2 : Nat) / 2 + (m % 2 ^ j : Nat) / 2 ^ (j + 1) := by
        rw [div_eq_iff (by positivity), hm]
        field_simp
        ring
      have hlt : ((m % 2 ^ j : Nat) : ℚ) < 2 ^ j := by
        exact_mod_cast Nat.mod_lt m (Nat.two_pow_pos j)
      rw [repeat_shiftRightOne_succ, hvalue]
      apply roundsTo_roundedMantissa (Nat.mod_lt _ (by decide)) (by positivity)
      · rw [pow_succ, div_lt_div_iff₀ (by positivity) (by positivity)]
        linarith
      · simp

/-- The mantissa that a natural number of more than 53 bits is rounded to. It may have one bit too many. -/
def roundedBits (n : Nat) : Nat :=
  ((n.log2 - 52 + 53).repeat ExtendedMantissa.shiftRightOne ⟨n <<< 53, false, false⟩).roundedMantissa

theorem roundsTo_roundedBits (n : Nat) : RoundsTo (n / 2 ^ (n.log2 - 52)) (roundedBits n) := by
  have hround := roundsTo_repeat (n <<< 53) (n.log2 - 52 + 53)
  have hquotient : ((n <<< 53 : Nat) : ℚ) / 2 ^ (n.log2 - 52 + 53) = n / 2 ^ (n.log2 - 52) := by
    rw [Nat.shiftLeft_eq, pow_add, Nat.cast_mul, Nat.cast_pow, Nat.cast_ofNat,
      mul_div_mul_right _ _ (by positivity)]
  rwa [hquotient] at hround

/-- The rounded mantissa has 53 bits, or is the power of two after them. -/
theorem roundedBits_bounds {n : Nat} (hn : 2 ^ 53 ≤ n) : 2 ^ 52 ≤ roundedBits n ∧ roundedBits n ≤ 2 ^ 53 := by
  have hpos : n ≠ 0 := by omega
  have hlog : 53 ≤ n.log2 := (Nat.le_log2 hpos).mpr hn
  obtain ⟨hlow, hhigh⟩ := (Nat.log2_eq_iff hpos).mp rfl
  obtain ⟨k, hk⟩ : ∃ k, n.log2 = 52 + k := ⟨n.log2 - 52, by omega⟩
  have hround := (roundsTo_roundedBits n).nearest
  rw [hk, Nat.add_sub_cancel_left] at hround
  rw [hk] at hlow hhigh
  have hpow : (0 : ℚ) < 2 ^ k := by positivity
  have hqlow : (2 : ℚ) ^ 52 ≤ n / 2 ^ k := by
    rw [le_div_iff₀ hpow, ← pow_add]
    exact_mod_cast hlow
  have hqhigh : (n : ℚ) / 2 ^ k < 2 ^ 53 := by
    rw [div_lt_iff₀ hpow, ← pow_add, show 53 + k = 52 + k + 1 by omega]
    exact_mod_cast hhigh
  constructor
  · by_contra hlt
    have hlt : ((roundedBits n : ℤ) : ℚ) + 1 ≤ 2 ^ 52 := by
      exact_mod_cast (by omega : roundedBits n + 1 ≤ 2 ^ 52)
    have hnear := (hround (2 ^ 52)).1
    push_cast at hnear hlt
    rw [abs_of_nonpos (by linarith), abs_of_nonpos (by linarith)] at hnear
    linarith
  · by_contra hlt
    have hlt : (2 : ℚ) ^ 53 + 1 ≤ ((roundedBits n : ℤ) : ℚ) := by
      exact_mod_cast (by omega : 2 ^ 53 + 1 ≤ roundedBits n)
    have hnear := (hround (2 ^ 53)).1
    push_cast at hnear hlt
    rw [abs_of_nonneg (by linarith), abs_of_nonneg (by linarith)] at hnear
    linarith

theorem parts_ofNat_eq_round {n : Nat} (hn : 2 ^ 53 ≤ n) :
    parts (Float.ofNat n)
      = (Float.Model.pack (roundWithAccuracy Format.binary64 .positive (n <<< 53) (-53) .exact)).unpack := by
  have hpos : n ≠ 0 := by omega
  have hscientific : UnpackedFloat.ofScientific Format.binary64 n 0
      = roundWithAccuracy Format.binary64 .positive (n <<< 53 * 1) (-53 + 0) .exact := by
    have hleast : ¬ (0 : Int) < -(2 ^ Format.binary64.exponentBits + n.log2) := by
      have : (2 : Int) ^ Format.binary64.exponentBits = 2048 := rfl
      omega
    unfold UnpackedFloat.ofScientific
    rw [dif_neg hpos, if_neg (by decide), if_neg hleast, if_pos (by decide)]
    rfl
  show parts (Float.ofScientific n false 0) = _
  unfold Float.ofScientific
  rw [dif_neg (by omega)]
  show (Float.Model.pack (UnpackedFloat.ofScientific Format.binary64 n 0)).unpack = _
  rw [hscientific, Nat.mul_one, Int.add_zero]

theorem shiftToTargetExponent_large {n : Nat} (hn : 2 ^ 53 ≤ n) :
    shiftToTargetExponent Format.binary64 (n <<< 53) (-53) .exact
      = ((n.log2 - 52 + 53).repeat ExtendedMantissa.shiftRightOne ⟨n <<< 53, false, false⟩,
          ((n.log2 - 52 : Nat) : Int)) := by
  have hpos : 0 < n := by omega
  have hlow : 53 ≤ n.log2 := (Nat.le_log2 (Nat.ne_of_gt hpos)).mpr hn
  have htarget : Format.binary64.targetExponent (totalExponent (n <<< 53) (-53)) = (n.log2 - 52 : Nat) := by
    simp only [Format.targetExponent, totalExponent, Format.mantissaBits, Format.minExponent,
      log2_shiftLeft hpos]
    omega
  have hshift : (((n.log2 - 52 : Nat) : Int) - (-53)).toNat = n.log2 - 52 + 53 := by omega
  simp only [shiftToTargetExponent, htarget, shiftToExponent, hshift]
  exact Prod.ext rfl (by dsimp only; omega)

/-- A number of more than 53 bits is the pair that its rounded mantissa is shifted to. -/
theorem parts_ofNat_of_shift {n m : Nat} {e : Int} (hn : 2 ^ 53 ≤ n) (hm : 0 < m) (h : Canonical m e)
    (hshift : shiftToTargetExponent Format.binary64 (roundedBits n) (n.log2 - 52 : Nat) .exact
      = (⟨m, false, false⟩, e)) :
    parts (Float.ofNat n) = .finite .positive m e hm := by
  have hround : roundWithAccuracy Format.binary64 .positive (n <<< 53) (-53) .exact
      = .finite .positive m e hm := by
    unfold roundWithAccuracy
    rw [shiftToTargetExponent_large hn]
    dsimp only
    rw [← roundedBits, hshift]
    exact dif_neg (Nat.ne_of_gt hm)
  rw [parts_ofNat_eq_round hn, hround]
  exact unpack_pack hm h

/-- A natural number of more than 53 bits is its rounded mantissa at the place of the last bit that is kept. -/
theorem parts_ofNat_large {n : Nat} (hn : 2 ^ 53 ≤ n) (hhigh : n < 2 ^ 64) :
    ∃ m e hm, parts (Float.ofNat n) = .finite .positive m e hm ∧
      (m : ℚ) * 2 ^ e = roundedBits n * 2 ^ (n.log2 - 52) ∧ (Even (roundedBits n) → Even m) := by
  have hhigh : n.log2 < 64 := (Nat.log2_lt (by omega)).mpr hhigh
  obtain ⟨hbits, hover⟩ := roundedBits_bounds hn
  by_cases hexact : roundedBits n = 2 ^ 53
  · -- One bit too many: the exponent is one greater.
    have hcanonical : Canonical (2 ^ 52) ((n.log2 - 52 : Nat) + 1) :=
      ⟨by decide, by omega, by omega, .inl (Nat.le_refl _)⟩
    have hshift := shiftToTargetExponent_exact (by decide) hcanonical 1
    rw [Nat.cast_one, Int.add_sub_cancel] at hshift
    refine ⟨2 ^ 52, _, by decide, parts_ofNat_of_shift hn (by decide) hcanonical ?_, ?_, fun _ => by decide⟩
    · rw [hexact]
      exact hshift
    · rw [hexact, zpow_add₀ (by norm_num), zpow_natCast]
      push_cast
      ring
  · have hcanonical : Canonical (roundedBits n) (n.log2 - 52 : Nat) :=
      ⟨by omega, by omega, by omega, .inl hbits⟩
    have hpositive : 0 < roundedBits n := by omega
    have hshift := shiftToTargetExponent_exact hpositive hcanonical 0
    rw [Nat.cast_zero, Int.sub_zero, Nat.shiftLeft_zero] at hshift
    refine ⟨_, _, hpositive, parts_ofNat_of_shift hn hpositive hcanonical hshift, ?_, id⟩
    rw [zpow_natCast]

/-- A double is a multiple of a given power of two, unless that is not the least and the double lies below all mantissas
of 53 bits there. -/
theorem value?_coarse {y : Float} {w : ℚ} (h : value? y = some w) (k : ℤ) :
    (-1074 < k ∧ w ≤ (2 ^ 52 - 1 / 2) * 2 ^ k) ∨ ∃ i : ℤ, w = i * 2 ^ k := by
  unfold value? at h
  cases hparts : parts y with
  | zero s =>
      rw [hparts] at h
      cases h
      exact .inr ⟨0, by simp⟩
  | finite s m e hm =>
      rw [hparts] at h
      cases h
      by_cases he : k ≤ e
      · right
        obtain ⟨j, rfl⟩ := Int.le.dest he
        refine ⟨s.apply m * 2 ^ j, ?_⟩
        rw [zpow_add₀ (by norm_num), zpow_natCast]
        push_cast
        ring
      · left
        obtain ⟨hbits, hlow, -, -⟩ := canonical_of_parts hparts
        refine ⟨by omega, ?_⟩
        have hsign : s.apply m ≤ m := by
          cases s with
          | positive => exact le_refl _
          | negative => show -(m : ℤ) ≤ m; omega
        have hbits : ((s.apply m : ℤ) : ℚ) ≤ 2 ^ 53 - 1 := by
          have : s.apply m ≤ 2 ^ 53 - 1 := by omega
          exact_mod_cast this
        have hexponent : (2 : ℚ) ^ e ≤ 2 ^ (k - 1) := zpow_le_zpow_right₀ (by norm_num) (by omega)
        calc ((s.apply m : ℤ) : ℚ) * 2 ^ e
            ≤ (2 ^ 53 - 1) * 2 ^ (k - 1) := by
              apply mul_le_mul hbits hexponent (by positivity) (by norm_num)
          _ = (2 ^ 52 - 1 / 2) * 2 ^ k := by
              rw [zpow_sub₀ (by norm_num), zpow_one]
              ring
  | infinity s => rw [hparts] at h; cases h
  | notANumber => rw [hparts] at h; cases h

/-- A mantissa of 53 bits that is nearest among the multiples of a power of two is nearest among all doubles. -/
theorem nearest_of_roundsTo {n : ℚ} {r : ℤ} {k : Nat} (hround : RoundsTo (n / 2 ^ k) r)
    (hbits : 2 ^ 52 * 2 ^ k ≤ n) {y : Float} {w : ℚ} (hw : value? y = some w) :
    |r * 2 ^ k - n| ≤ |w - n| ∧ (|w - n| = |r * 2 ^ k - n| → w = r * 2 ^ k ∨ Even r) := by
  have hpow : (0 : ℚ) < 2 ^ k := by positivity
  have hscale : ∀ i : ℚ, |i * 2 ^ k - n| = |i - n / 2 ^ k| * 2 ^ k := by
    intro i
    rw [← abs_of_pos hpow, ← abs_mul, abs_of_pos hpow, sub_mul, div_mul_cancel₀ _ hpow.ne']
  -- What is said of the multiples of the power of two.
  have hmultiple : ∀ i : ℤ, |r * 2 ^ k - n| ≤ |i * 2 ^ k - n| ∧
      (|i * 2 ^ k - n| = |r * 2 ^ k - n| → (i : ℚ) * 2 ^ k = r * 2 ^ k ∨ Even r) := by
    intro i
    obtain ⟨hle, htie⟩ := hround.nearest i
    rw [hscale, hscale]
    refine ⟨mul_le_mul_of_nonneg_right hle hpow.le, fun heq => ?_⟩
    rcases htie (mul_right_cancel₀ hpow.ne' heq) with rfl | heven
    · exact .inl rfl
    · exact .inr heven
  rcases value?_coarse hw k with ⟨-, hbelow⟩ | ⟨i, rfl⟩
  · -- Below these mantissas nothing is nearer than the least of them.
    have hbelow : w ≤ 2 ^ 52 * 2 ^ k := by
      rw [zpow_natCast] at hbelow
      linarith
    obtain ⟨hle, htie⟩ := hmultiple (2 ^ 52)
    rw [Int.cast_pow, Int.cast_ofNat, abs_of_nonpos (sub_nonpos.mpr hbits)] at hle htie
    rw [abs_of_nonpos (sub_nonpos.mpr (hbelow.trans hbits))]
    refine ⟨by linarith, fun heq => ?_⟩
    have hleast : w = 2 ^ 52 * 2 ^ k := by linarith
    rw [hleast] at heq ⊢
    exact htie heq
  · rw [zpow_natCast]
    exact hmultiple i

/-- **A natural number of 64 bits becomes the double nearest to it**, the even one of two. -/
theorem isNearest_ofNat {n : Nat} (hn : n < 2 ^ 64) : IsNearest n (Float.ofNat n) := by
  by_cases hsmall : n < 2 ^ 53
  · -- The number itself is a double.
    have hexact : value? (Float.ofNat n) = some (n : ℚ) := by
      rcases Nat.eq_zero_or_pos n with rfl | hpos
      · rfl
      · have hlog : n.log2 < 53 := (Nat.log2_lt (Nat.ne_of_gt hpos)).mpr hsmall
        rw [value?, parts_ofNat hpos hsmall]
        have hexponent : (n.log2 : Int) - 52 = -(52 - n.log2 : Nat) := by omega
        simp only [Sign.apply, Option.some.injEq, hexponent, zpow_neg, zpow_natCast, Nat.shiftLeft_eq]
        push_cast
        field_simp
    refine ⟨n, hexact, fun y w _ => ?_⟩
    rw [sub_self, abs_zero, abs_eq_zero, sub_eq_zero]
    exact ⟨abs_nonneg _, .inl⟩
  · have hlarge : 2 ^ 53 ≤ n := by omega
    have hpos : n ≠ 0 := by omega
    obtain ⟨m, e, hm, hparts, hvalue, heven⟩ := parts_ofNat_large hlarge hn
    have hbits : (2 : ℚ) ^ 52 * 2 ^ (n.log2 - 52) ≤ n := by
      have hlog : 53 ≤ n.log2 := (Nat.le_log2 hpos).mpr hlarge
      rw [← pow_add, Nat.add_sub_cancel' (by omega)]
      exact_mod_cast Nat.log2_self_le hpos
    refine ⟨m * 2 ^ e, by rw [value?, hparts]; rfl, fun y w hw => ?_⟩
    have hnearest := nearest_of_roundsTo (roundsTo_roundedBits n) hbits hw
    rw [hvalue]
    refine ⟨by exact_mod_cast hnearest.1, fun heq => ?_⟩
    rcases hnearest.2 (by exact_mod_cast heq) with hsame | htie
    · exact .inl (by exact_mod_cast hsame)
    · right
      rw [isEven, hparts]
      simpa [Nat.even_iff] using heven (by exact_mod_cast htie)

end Minifier.Double

namespace Minifier

/-- The double of a numeral is a number. -/
theorem Numeral.isNaN_toFloat (n : Numeral) : n.toFloat.isNaN = false := by
  have hscientific := Double.isNaN_ofScientific n.digits (n.scale < 0) n.scale.natAbs
  unfold Numeral.toFloat
  dsimp only
  split
  · rw [Double.isNaN_neg]
    exact hscientific
  · exact hscientific

end Minifier
