import Mathlib
import Minifier.Double

/-!
# The parts of doubles

A double is determined by its parts (`ext_parts`). The parts of a finite double are *canonical*: a mantissa
of 53 bits, or the least exponent there is. So every number is `m · 2 ^ e` for one canonical
pair, and rounding a number to the pair that it has already is exact.

With that, negation changes the sign and nothing else (`neg_neg`), doubles that equal each other are the same
but for the zeros (`eq_of_beq`), and the integers of at most 53 bits are held exactly: what a double
holds is that double again (`ofInt_integer?`), and every one of them is held (`integer?_ofInt`).
-/

namespace Minifier.Double

open Float.Model (Format UnpackedFloat totalExponent)
open Float.Model.UnpackedFloat

/-- Two doubles with the same parts are the same. -/
theorem ext_parts {x y : Float} (h : parts x = parts y) : x = y := by
  obtain ⟨⟨bits, hbits⟩⟩ := x
  obtain ⟨⟨bits', hbits'⟩⟩ := y
  have hsame := (unpack_inj_of_valid hbits hbits').mp h
  have hbits : bits = bits' := UInt64.toBitVec_inj.mp hsame
  subst hbits
  rfl

/-! ## Canonical pairs -/

/-- A mantissa and an exponent as a double holds them. -/
structure Canonical (m : Nat) (e : Int) : Prop where
  bits : m < 2 ^ 53
  low : -1074 ≤ e
  high : e ≤ 971
  normal : 2 ^ 52 ≤ m ∨ e = -1074

/-- The mantissa of a normal double, with the bit that is not stored. -/
theorem toNat_implicit (mantissa : BitVec 52) :
    (1#1 ++ mantissa).toNat = 2 ^ 52 + mantissa.toNat := by
  rw [BitVec.toNat_append, ← Nat.shiftLeft_add_eq_or_of_lt mantissa.isLt]
  rfl

theorem canonical_of_parts {x : Float} {s : Sign} {m : Nat} {e : Int} {hm : 0 < m}
    (h : parts x = .finite s m e hm) : Canonical m e := by
  unfold parts Float.Model.unpack UnpackedFloat.unpack at h
  have hmantissa := (@unpackMantissa Format.binary64 x.toModel.toBits.toBitVec).isLt
  have hexponent := (@unpackExponent Format.binary64 x.toModel.toBits.toBitVec).isLt
  dsimp only at h hmantissa hexponent
  split at h
  · split at h <;> cases h
  · rename_i hfinite
    have htop : (@unpackExponent Format.binary64 x.toModel.toBits.toBitVec).toNat ≠ 2047 :=
      fun htop => hfinite (BitVec.eq_of_toNat_eq htop)
    split at h
    · rename_i hzero
      split at h
      · cases h
      · -- The least exponent, and a mantissa of fewer bits.
        cases h
        have hzero : (@unpackExponent Format.binary64 x.toModel.toBits.toBitVec).toNat = 0 :=
          congrArg BitVec.toNat hzero
        simp only [hzero, Format.exponentBias]
        exact ⟨by omega, by omega, by omega, .inr (by omega)⟩
    · rename_i hzero
      have hpos : (@unpackExponent Format.binary64 x.toModel.toBits.toBitVec).toNat ≠ 0 :=
        fun hpos => hzero (BitVec.eq_of_toNat_eq hpos)
      cases h
      simp only [toNat_implicit, Format.exponentBias]
      exact ⟨by omega, by omega, by omega, .inl (by omega)⟩

/-- A canonical pair can be packed: its parts are those that were packed. -/
theorem unpack_pack {s : Sign} {m : Nat} {e : Int} (hm : 0 < m) (h : Canonical m e) :
    (Float.Model.pack (.finite s m e hm)).unpack = .finite s m e hm := by
  obtain ⟨hbits, hlow, hhigh, hnormal⟩ := h
  show UnpackedFloat.unpack Format.binary64
    (UnpackedFloat.pack Format.binary64 (.finite s m e hm)) = _
  have hbiased : (e + Format.binary64.exponentBias
      + Format.binary64.mantissaBitsWithoutImplicit).toNat = (e + 1075).toNat := by
    simp only [Format.exponentBias]
    congr 1
    omega
  unfold UnpackedFloat.pack
  simp only [hbiased]
  rw [if_neg (by omega)]
  split
  · -- The first bit of the mantissa is not stored, and is put back.
    rename_i hlog
    have hlog : m.log2 = 52 := by simpa [Format.mantissaBits] using hlog
    have hlarge := ((Nat.log2_eq_iff (Nat.ne_of_gt hm)).mp hlog).1
    have hexponent : (BitVec.ofNat 11 (e + 1075).toNat).toNat = (e + 1075).toNat := by
      rw [BitVec.toNat_ofNat, Nat.mod_eq_of_lt (by omega)]
    have hmantissa : (BitVec.ofNat 52 m).toNat = m - 2 ^ 52 := by
      rw [BitVec.toNat_ofNat]
      omega
    have hne : ∀ b : BitVec 11, b.toNat = 0 ∨ b.toNat = 2047 →
        BitVec.ofNat 11 (e + 1075).toNat ≠ b := by
      rintro b hb rfl
      omega
    unfold UnpackedFloat.unpack
    simp only [unpackExponent_packComponents, unpackMantissa_packComponents,
      unpackSign_packComponents, Sign.ofBitVec_toBitVec]
    rw [if_neg (hne _ (.inr rfl)), if_neg (hne _ (.inl rfl))]
    simp only [toNat_implicit, hmantissa, hexponent, finite.injEq, true_and, Format.exponentBias]
    omega
  · rename_i hlog
    have hsmall : m < 2 ^ 52 := by
      by_contra hlarge
      apply hlog
      show m.log2 + 1 = 53
      rw [(Nat.log2_eq_iff (Nat.ne_of_gt hm)).mpr ⟨by omega, hbits⟩]
    have hmantissa : (BitVec.ofNat 52 m).toNat = m := by
      rw [BitVec.toNat_ofNat, Nat.mod_eq_of_lt hsmall]
    have hne : BitVec.ofNat 52 m ≠ 0#52 := by
      intro hzero
      have := congrArg BitVec.toNat hzero
      rw [hmantissa, BitVec.toNat_ofNat] at this
      omega
    unfold UnpackedFloat.unpack
    simp only [unpackExponent_packComponents, unpackMantissa_packComponents,
      unpackSign_packComponents, Sign.ofBitVec_toBitVec]
    rw [if_neg (by decide), if_pos trivial, dif_neg hne]
    simp only [hmantissa, finite.injEq, true_and, Format.exponentBias, BitVec.toNat_ofNat]
    omega

/-! ## Negation -/

theorem parts_neg (x : Float) : parts (-x) = (parts x).neg := by
  show (Float.Model.pack (parts x).neg).unpack = _
  cases h : parts x with
  | notANumber => exact unpack_packedNaN
  | infinity s => cases s <;> rfl
  | zero s => exact unpack_packedZero
  | finite s m e hm => exact unpack_pack hm (canonical_of_parts h)

theorem neg_neg (x : Float) : -(-x) = x := by
  apply ext_parts
  rw [parts_neg, parts_neg]
  cases parts x with
  | notANumber => rfl
  | infinity s => cases s <;> rfl
  | zero s => cases s <;> rfl
  | finite s m e hm => cases s <;> rfl

theorem isNaN_neg (x : Float) : (-x).isNaN = x.isNaN := by
  show (parts (-x)).isNaN = (parts x).isNaN
  rw [parts_neg]
  cases parts x <;> rfl

theorem isInf_neg (x : Float) : (-x).isInf = x.isInf := by
  show (parts (-x)).isInf = (parts x).isInf
  rw [parts_neg]
  cases parts x <;> rfl

theorem isNegative_neg {x : Float} (h : isNegative x = true) :
    isNegative (-x) = false := by
  have hsign : ∀ s : Sign,
      (s == .negative) = true → (-s == .negative) = false := by
    intro s hs
    cases s with
    | positive => cases hs
    | negative => rfl
  unfold isNegative at h ⊢
  rw [parts_neg]
  cases hparts : parts x with
  | notANumber => rfl
  | infinity s => exact hsign s (by rw [hparts] at h; exact h)
  | zero s => exact hsign s (by rw [hparts] at h; exact h)
  | finite s m e hm => exact hsign s (by rw [hparts] at h; exact h)

/-! ## Equality -/

/-- Every double but the one that is no number equals itself. -/
theorem beq_self {x : Float} (h : x.isNaN = false) : (x == x) = true := by
  have hcompare : (parts x).compare (parts x) = some .eq := by
    cases hparts : parts x with
    | notANumber =>
        have hnan : (parts x).isNaN = false := h
        rw [hparts] at hnan
        cases hnan
    | infinity s => cases s <;> rfl
    | zero s => rfl
    | finite s m e hm =>
        have heq : ((compare e e).then (compare m m)) = .eq := by
          rw [compare_eq_iff_eq.mpr rfl, compare_eq_iff_eq.mpr rfl]
          rfl
        cases s with
        | positive => exact congrArg some heq
        | negative => exact congrArg (fun o => some (Ordering.swap o)) heq
  show ((parts x).compare (parts x) == some .eq) = true
  rw [hcompare]
  rfl

/-- Doubles that equal each other are the same, except for the two zeros. -/
theorem eq_of_beq {x y : Float} (h : (x == y) = true) (hzero : ∀ s, parts x ≠ .zero s) : x = y := by
  have hcompare : ((parts x).compare (parts y) == some .eq) = true := h
  rw [beq_iff_eq] at hcompare
  have hfinite : ∀ {m n : Nat} {e f : Int}, (compare e f).then (compare m n) = .eq → m = n ∧ e = f := by
    intro m n e f hthen
    rw [Ordering.then_eq_eq, compare_eq_iff_eq, compare_eq_iff_eq] at hthen
    exact ⟨hthen.2, hthen.1⟩
  apply ext_parts
  cases hx : parts x with
  | notANumber => rw [hx] at hcompare; cases hcompare
  | zero s => exact absurd hx (hzero s)
  | infinity s =>
      rw [hx] at hcompare
      cases hy : parts y with
      | infinity t => rw [hy] at hcompare; cases s <;> cases t <;> first | rfl | cases hcompare
      | _ => rw [hy] at hcompare; cases s <;> cases hcompare
  | finite s m e hm =>
      rw [hx] at hcompare
      cases hy : parts y with
      | finite t n f hn =>
          rw [hy] at hcompare
          cases s <;> cases t
          · have hswap : ((compare e f).then (compare m n)).swap = .eq := Option.some.inj hcompare
            obtain ⟨rfl, rfl⟩ := hfinite (Ordering.swap_eq_eq.mp hswap)
            rfl
          · cases hcompare
          · cases hcompare
          · obtain ⟨rfl, rfl⟩ := hfinite (Option.some.inj hcompare)
            rfl
      | infinity t => rw [hy] at hcompare; cases s <;> cases t <;> cases hcompare
      | _ => rw [hy] at hcompare; cases s <;> cases hcompare

/-! ## Whole numbers -/

theorem shiftLeft_succ (m j : Nat) : m <<< (j + 1) = 2 * m <<< j := by
  rw [Nat.shiftLeft_eq, Nat.shiftLeft_eq, Nat.pow_succ]
  ring

theorem log2_shiftLeft {m : Nat} (hm : 0 < m) (k : Nat) : (m <<< k).log2 = m.log2 + k := by
  induction k with
  | zero => rfl
  | succ k ih =>
      have hpos : m <<< k ≠ 0 := Nat.ne_of_gt (Nat.shiftLeft_pos_iff.mpr hm)
      rw [shiftLeft_succ, Nat.log2_two_mul hpos, ih, Nat.add_assoc]

/-- Shifting zeros out loses nothing. -/
theorem repeat_shiftRightOne (m j k : Nat) :
    k.repeat ExtendedMantissa.shiftRightOne ⟨m <<< (j + k), false, false⟩
      = ⟨m <<< j, false, false⟩ := by
  induction k generalizing j with
  | zero => rfl
  | succ k ih =>
      rw [Nat.repeat, show j + (k + 1) = (j + 1) + k by omega, ih (j + 1)]
      simp [ExtendedMantissa.shiftRightOne, shiftLeft_succ]

theorem targetExponent_eq {m : Nat} {e : Int} (hm : 0 < m) (h : Canonical m e) :
    Format.binary64.targetExponent (m.log2 + 1 + e) = e := by
  obtain ⟨hbits, hlow, _, hnormal⟩ := h
  have hlog : m.log2 < 53 := (Nat.log2_lt (Nat.ne_of_gt hm)).mpr hbits
  simp only [Format.targetExponent, Format.mantissaBits, Format.minExponent]
  rcases hnormal with hlarge | hleast
  · have hlog : 52 ≤ m.log2 := (Nat.le_log2 (Nat.ne_of_gt hm)).mpr hlarge
    omega
  · omega

theorem shiftToTargetExponent_exact {m : Nat} {e : Int} (hm : 0 < m) (h : Canonical m e) (k : Nat) :
    shiftToTargetExponent Format.binary64 (m <<< k) (e - k) .exact = (⟨m, false, false⟩, e) := by
  have htotal : totalExponent (m <<< k) (e - k) = m.log2 + 1 + e := by
    simp only [totalExponent, log2_shiftLeft hm]
    omega
  have hshift : (e - (e - (k : Int))).toNat = k := by omega
  simp only [shiftToTargetExponent, htotal, targetExponent_eq hm h, shiftToExponent, hshift,
    ExtendedMantissa.ofMantissaAndAccuracy]
  congr 1
  · have := repeat_shiftRightOne m 0 k
    rwa [Nat.zero_add] at this
  · omega

/-- A number that has a canonical pair is rounded to that pair. -/
theorem roundWithAccuracy_exact {s : Sign} {m : Nat} {e : Int} (hm : 0 < m) (h : Canonical m e)
    (k : Nat) :
    roundWithAccuracy Format.binary64 s (m <<< k) (e - k) .exact = .finite s m e hm := by
  have hagain : shiftToTargetExponent Format.binary64 m e .exact = (⟨m, false, false⟩, e) := by
    simpa using shiftToTargetExponent_exact hm h 0
  have hrounded : (ExtendedMantissa.mk m false false).roundedMantissa = m := rfl
  unfold roundWithAccuracy
  rw [shiftToTargetExponent_exact hm h k]
  dsimp only
  rw [hrounded, hagain]
  exact dif_neg (Nat.ne_of_gt hm)

/-- The canonical pair of a whole number. -/
theorem canonical_ofNat {n : Nat} (hn : 0 < n) (hbits : n < 2 ^ 53) :
    Canonical (n <<< (52 - n.log2)) (n.log2 - 52) := by
  have hlog : n.log2 < 53 := (Nat.log2_lt (Nat.ne_of_gt hn)).mpr hbits
  have hshifted : (n <<< (52 - n.log2)).log2 = 52 := by
    rw [log2_shiftLeft hn]
    omega
  obtain ⟨hlow, hhigh⟩ :=
    (Nat.log2_eq_iff (Nat.ne_of_gt (Nat.shiftLeft_pos_iff.mpr hn))).mp hshifted
  exact ⟨hhigh, by omega, by omega, .inl hlow⟩

theorem round_ofNat {s : Sign} {n : Nat} (hn : 0 < n) (hbits : n < 2 ^ 53) :
    UnpackedFloat.round Format.binary64 s n 0
      = .finite s (n <<< (52 - n.log2)) (n.log2 - 52) (Nat.shiftLeft_pos_iff.mpr hn) := by
  have hlog : n.log2 < 53 := (Nat.log2_lt (Nat.ne_of_gt hn)).mpr hbits
  have htarget : Format.binary64.targetExponent (totalExponent n 0) = n.log2 - 52 := by
    simp only [Format.targetExponent, totalExponent, Format.mantissaBits, Format.minExponent]
    omega
  have hshift : ((0 : Int) - (n.log2 - 52)).toNat = 52 - n.log2 := by omega
  have hexponent : (0 : Int) - (52 - n.log2 : Nat) = n.log2 - 52 := by omega
  unfold UnpackedFloat.round
  simp only [htarget, decreaseExponent, hshift, hexponent]
  simpa using roundWithAccuracy_exact (s := s) (Nat.shiftLeft_pos_iff.mpr hn)
    (canonical_ofNat hn hbits) 0

theorem parts_toFloat {n : Nat} (hn : 0 < n) (hbits : n < 2 ^ 53) :
    parts n.toUInt64.toFloat
      = .finite .positive (n <<< (52 - n.log2)) (n.log2 - 52) (Nat.shiftLeft_pos_iff.mpr hn) := by
  have hword : n.toUInt64.toNat = n := by
    rw [Nat.toUInt64_eq, UInt64.toNat_ofNat']
    exact Nat.mod_eq_of_lt (by omega)
  show (Float.Model.pack (UnpackedFloat.normalize Format.binary64 n.toUInt64.toNat 0 _)).unpack = _
  unfold UnpackedFloat.normalize
  rw [hword, Int.compare_eq_gt.mpr (by omega)]
  simp only [Int.toNat_natCast, round_ofNat hn hbits]
  exact unpack_pack _ (canonical_ofNat hn hbits)

theorem parts_one : parts (Float.ofBits 0x3FF0000000000000) = .finite .positive (2 ^ 52) (-52) (by decide) :=
  rfl

theorem parts_ofNat {n : Nat} (hn : 0 < n) (hbits : n < 2 ^ 53) :
    parts (Float.ofNat n)
      = .finite .positive (n <<< (52 - n.log2)) (n.log2 - 52) (Nat.shiftLeft_pos_iff.mpr hn) := by
  have hscientific : Float.ofNat n = n.toUInt64.toFloat * Float.ofBits 0x3FF0000000000000 := by
    show Float.ofScientific n false 0 = _
    unfold Float.ofScientific
    rw [dif_pos ⟨hbits, by decide⟩]
    rfl
  rw [hscientific]
  show (Float.Model.pack (UnpackedFloat.mul Format.binary64 (parts n.toUInt64.toFloat)
    (parts (Float.ofBits 0x3FF0000000000000)))).unpack = _
  rw [parts_toFloat hn hbits, parts_one]
  have hround := roundWithAccuracy_exact (s := .positive) (Nat.shiftLeft_pos_iff.mpr hn)
    (canonical_ofNat hn hbits) 52
  rw [Nat.shiftLeft_eq _ 52] at hround
  have hmul : UnpackedFloat.mul Format.binary64
      (.finite .positive (n <<< (52 - n.log2)) (n.log2 - 52) (Nat.shiftLeft_pos_iff.mpr hn))
      (.finite .positive (2 ^ 52) (-52) (by decide))
      = .finite .positive (n <<< (52 - n.log2)) (n.log2 - 52) (Nat.shiftLeft_pos_iff.mpr hn) :=
    hround
  rw [hmul]
  exact unpack_pack _ (canonical_ofNat hn hbits)

/-- A canonical pair of a whole number is the one that the number has. -/
theorem parts_ofNat_of_canonical {m n j : Nat} {e : Int} (hm : 0 < m) (h : Canonical m e)
    (hmantissa : m = n <<< j) (hexponent : e = -j) :
    parts (Float.ofNat n) = .finite .positive m e hm := by
  subst hmantissa hexponent
  have hn : 0 < n := Nat.shiftLeft_pos_iff.mp hm
  have hlog := log2_shiftLeft hn j
  have hbits : n < 2 ^ 53 := by
    refine Nat.lt_of_le_of_lt ?_ h.bits
    rw [Nat.shiftLeft_eq]
    exact Nat.le_mul_of_pos_right n (Nat.two_pow_pos j)
  have hupper : (n <<< j).log2 < 53 := (Nat.log2_lt (Nat.ne_of_gt hm)).mpr h.bits
  have hlower : 52 ≤ (n <<< j).log2 := by
    rcases h.normal with hlarge | hleast
    · exact (Nat.le_log2 (Nat.ne_of_gt hm)).mpr hlarge
    · omega
  have hj : 52 - n.log2 = j := by omega
  have he : (n.log2 : Int) - 52 = -j := by omega
  rw [parts_ofNat hn hbits]
  simp only [hj, he]

/-- The integer that a double is, when it is not zero: a whole number with the sign of the double. -/
theorem integer?_of_finite {x : Float} {i : Int} {s : Sign} {m : Nat} {e : Int} {hm : 0 < m}
    (hparts : parts x = .finite s m e hm) (h : integer? x = some i) (hsafe : i.natAbs < 2 ^ 53) :
    ∃ n j : Nat, i = s.apply n ∧ m = n <<< j ∧ e = -j := by
  have hcanonical := canonical_of_parts hparts
  unfold integer? at h
  simp only [hparts] at h
  cases e with
  | ofNat k =>
      have hi : i = s.apply (m <<< k) := (Option.some.inj h).symm
      have habs : i.natAbs = m <<< k := by
        rw [hi]
        cases s with
        | positive => exact Int.natAbs_natCast _
        | negative => exact (Int.natAbs_neg _).trans (Int.natAbs_natCast _)
      have hlarge : 2 ^ 52 ≤ m := by
        rcases hcanonical.normal with hlarge | hleast
        · exact hlarge
        · have hleast : (k : Int) = -1074 := hleast
          omega
      -- A mantissa of 53 bits leaves no room for a factor of two.
      have hk : k = 0 := by
        by_contra hk
        have : m * 2 ≤ m <<< k := by
          rw [Nat.shiftLeft_eq]
          exact Nat.mul_le_mul_left m (Nat.le_pow (by omega))
        omega
      subst hk
      exact ⟨m, 0, hi, rfl, rfl⟩
  | negSucc k =>
      dsimp only at h
      split at h
      · rename_i hdvd
        have hi : i = s.apply (m >>> (k + 1)) := (Option.some.inj h).symm
        refine ⟨m >>> (k + 1), k + 1, hi, ?_, rfl⟩
        rw [Nat.one_shiftLeft] at hdvd
        rw [Nat.shiftRight_eq_div_pow, Nat.shiftLeft_eq,
          Nat.div_mul_cancel (Nat.dvd_of_mod_eq_zero hdvd)]
      · cases h

/-- **An integer of at most 53 bits is held exactly.** -/
theorem ofInt_integer? {x : Float} {i : Int} {s : Sign} {m : Nat} {e : Int} {hm : 0 < m}
    (hparts : parts x = .finite s m e hm) (h : integer? x = some i) (hsafe : i.natAbs < 2 ^ 53) :
    Float.ofInt i = x := by
  obtain ⟨n, j, rfl, hmantissa, hexponent⟩ := integer?_of_finite hparts h hsafe
  have hn : parts (Float.ofNat n) = .finite .positive m e hm :=
    parts_ofNat_of_canonical hm (canonical_of_parts hparts) hmantissa hexponent
  have hpos : 0 < n := by
    rw [hmantissa] at hm
    exact Nat.shiftLeft_pos_iff.mp hm
  apply ext_parts
  rw [hparts]
  cases s with
  | positive => exact hn
  | negative =>
      obtain ⟨p, rfl⟩ : ∃ p, n = p + 1 := ⟨n - 1, by omega⟩
      show parts (-(Float.ofNat (p + 1))) = _
      rw [parts_neg, hn]
      rfl

/-- The integer that a whole number of either sign is. -/
theorem integer?_of_parts {x : Float} {s : Sign} {n k : Nat} {hm : 0 < n <<< k}
    (h : parts x = .finite s (n <<< k) (-k) hm) : integer? x = some (s.apply n) := by
  unfold integer?
  simp only [h]
  cases k with
  | zero => rfl
  | succ k =>
      have hexponent : (-((k + 1 : Nat) : Int)) = .negSucc k := rfl
      simp only [hexponent]
      rw [Nat.one_shiftLeft, Nat.shiftLeft_eq, Nat.mul_mod_left, if_pos rfl, Nat.shiftRight_eq_div_pow,
        Nat.mul_div_cancel _ (Nat.two_pow_pos _)]

/-- **A double holds every integer of at most 53 bits.** -/
theorem integer?_ofInt {i : Int} (h : i.natAbs < 2 ^ 53) : integer? (Float.ofInt i) = some i := by
  have hparts : ∀ n : Nat, 0 < n → n < 2 ^ 53 → ∃ k hm,
      parts (Float.ofNat n) = .finite .positive (n <<< k) (-k) hm := by
    intro n hn hbits
    have hlog : n.log2 < 53 := (Nat.log2_lt (Nat.ne_of_gt hn)).mpr hbits
    have hexponent : (n.log2 : Int) - 52 = -(52 - n.log2 : Nat) := by omega
    refine ⟨52 - n.log2, Nat.shiftLeft_pos_iff.mpr hn, ?_⟩
    rw [parts_ofNat hn hbits]
    simp only [hexponent]
  cases i with
  | ofNat n =>
      rcases Nat.eq_zero_or_pos n with rfl | hn
      · rfl
      · obtain ⟨k, hm, hn⟩ := hparts n hn h
        exact integer?_of_parts hn
  | negSucc n =>
      obtain ⟨k, hm, hn⟩ := hparts (n + 1) (Nat.succ_pos n) h
      have hneg : parts (-(Float.ofNat (n + 1))) = .finite .negative ((n + 1) <<< k) (-k) hm := by
        rw [parts_neg, hn]
        rfl
      exact integer?_of_parts hneg

end Minifier.Double
