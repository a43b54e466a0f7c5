import Minifier.Decimal.Shortest
import Minifier.Proofs.Value.Rounding

/-!
# The numbers that are read as a double

A number is read as the double nearest to it, unless it is too great (`Double.ReadsAs`). The numbers that are read as
`m · 2 ^ e` are those between the points halfway to its two neighbours, and these points themselves if `m` is even:
they form the interval of the double (`Double.readsAs_iff_holds`).

The neighbour above is one unit `2 ^ e` away. So is the one below, but for a power of two, where the doubles below
lie twice as close (`Double.gap`); and there is no double in between (`Double.apart`).
-/

namespace Minifier

namespace Double

open Float.Model.UnpackedFloat

/-! ## Reading -/

/-- The least number that is too great for a double. It lies halfway between the greatest double and the power of two
after that. -/
def overflow : ℚ := (2 ^ 53 - 1 / 2) * 2 ^ (971 : ℤ)

/-- The number is read as the double. -/
def ReadsAs (q : ℚ) (x : Float) : Prop := IsNearest q x ∧ |q| < overflow

theorem value?_neg (x : Float) : value? (-x) = (value? x).map (-·) := by
  rw [value?, value?, parts_neg]
  cases parts x with
  | finite s m e hm =>
      show some (((-s).apply m : ℤ) * (2 : ℚ) ^ e) = some (-((s.apply m : ℤ) * (2 : ℚ) ^ e))
      cases s <;> simp [Sign.apply]
  | zero s => exact congrArg some neg_zero.symm
  | infinity s => rfl
  | notANumber => rfl

theorem isEven_neg (x : Float) : isEven (-x) = isEven x := by
  rw [isEven, isEven, parts_neg]
  cases parts x <;> rfl

theorem IsNearest.neg {q : ℚ} {x : Float} (h : IsNearest q x) : IsNearest (-q) (-x) := by
  obtain ⟨v, hv, hnearest⟩ := h
  refine ⟨-v, by rw [value?_neg, hv]; rfl, fun y w hw => ?_⟩
  have hw' : value? (-y) = some (-w) := by rw [value?_neg, hw]; rfl
  have habs : ∀ a : ℚ, |a - -q| = |-a - q| := fun a => by rw [← abs_neg]; congr 1; ring
  obtain ⟨hle, htie⟩ := hnearest _ _ hw'
  rw [habs, habs, InvolutiveNeg.neg_neg, isEven_neg]
  refine ⟨hle, fun heq => (htie heq).imp_left fun h => ?_⟩
  rw [← h, InvolutiveNeg.neg_neg]

theorem ReadsAs.neg {q : ℚ} {x : Float} (h : ReadsAs q x) : ReadsAs (-q) (-x) :=
  ⟨h.1.neg, by rw [abs_neg]; exact h.2⟩

/-! ## Neighbours -/

/-- How far the double before `m · 2 ^ e` is away, in units `2 ^ e`. -/
def gap (m : Nat) (e : Int) : ℚ := if m = 2 ^ 52 ∧ -1074 < e then 1 / 2 else 1

theorem gap_pos (m : Nat) (e : Int) : 0 < gap m e := by
  unfold gap
  split <;> norm_num

theorem gap_le_one (m : Nat) (e : Int) : gap m e ≤ 1 := by
  unfold gap
  split <;> norm_num

theorem exists_value {m : Nat} {e : Int} (h : Canonical m e) : ∃ y, value? y = some ((m : ℚ) * 2 ^ e) := by
  rcases Nat.eq_zero_or_pos m with rfl | hm
  · exact ⟨0.0, by rw [Nat.cast_zero, zero_mul]; rfl⟩
  · refine ⟨.ofModel (.pack (.finite .positive m e hm)), ?_⟩
    have hparts : parts (.ofModel (.pack (.finite .positive m e hm))) = .finite .positive m e hm := unpack_pack hm h
    rw [value?, hparts]
    rfl

theorem exists_before {m : Nat} {e : Int} (hm : 0 < m) (h : Canonical m e) :
    ∃ y, value? y = some ((m - gap m e) * 2 ^ e) := by
  obtain ⟨hbits, hlow, hhigh, hnormal⟩ := h
  by_cases hpower : m = 2 ^ 52 ∧ -1074 < e
  · -- The greatest mantissa, at the exponent below.
    have hcanonical : Canonical (2 ^ 53 - 1) (e - 1) := ⟨by omega, by omega, by omega, .inl (by omega)⟩
    obtain ⟨y, hy⟩ := exists_value hcanonical
    refine ⟨y, hy.trans (congrArg some ?_)⟩
    rw [gap, if_pos hpower, hpower.1, zpow_sub₀ (by norm_num), zpow_one]
    norm_num
    ring
  · have hcanonical : Canonical (m - 1) e := ⟨by omega, by omega, by omega, by omega⟩
    obtain ⟨y, hy⟩ := exists_value hcanonical
    refine ⟨y, hy.trans (congrArg some ?_)⟩
    rw [gap, if_neg hpower, Nat.cast_pred hm]

theorem exists_after {m : Nat} {e : Int} (h : Canonical m e) (hlast : m + 1 < 2 ^ 53 ∨ e < 971) :
    ∃ y, value? y = some (((m : ℚ) + 1) * 2 ^ e) := by
  obtain ⟨hbits, hlow, hhigh, hnormal⟩ := h
  by_cases hpower : m + 1 = 2 ^ 53
  · -- The least mantissa of 53 bits, at the exponent above.
    have hcanonical : Canonical (2 ^ 52) (e + 1) := ⟨by omega, by omega, by omega, .inl (by omega)⟩
    obtain ⟨y, hy⟩ := exists_value hcanonical
    refine ⟨y, hy.trans (congrArg some ?_)⟩
    have hcast : (m : ℚ) + 1 = 2 ^ 53 := by exact_mod_cast hpower
    rw [hcast, zpow_add₀ (by norm_num), zpow_one]
    norm_num
    ring
  · have hcanonical : Canonical (m + 1) e := ⟨by omega, by omega, by omega, by omega⟩
    obtain ⟨y, hy⟩ := exists_value hcanonical
    exact ⟨y, by exact_mod_cast hy⟩

/-- Between a double and its neighbours there is no other. -/
theorem apart {m : Nat} {e : Int} (h : Canonical m e) {y : Float} {w : ℚ} (hw : value? y = some w) :
    w ≤ (m - gap m e) * 2 ^ e ∨ w = m * 2 ^ e ∨ (m + 1) * 2 ^ e ≤ w := by
  obtain ⟨hbits, hlow, hhigh, hnormal⟩ := h
  have hunit : (0 : ℚ) < 2 ^ e := by positivity
  have hgap : (m : ℚ) - 1 ≤ m - gap m e := by linarith [gap_le_one m e]
  rcases value?_coarse hw e with ⟨hleast, hbelow⟩ | ⟨i, rfl⟩
  · left
    refine hbelow.trans (mul_le_mul_of_nonneg_right ?_ hunit.le)
    by_cases hpower : m = 2 ^ 52
    · rw [gap, if_pos ⟨hpower, hleast⟩, hpower]
      norm_num
    · have hm : (2 : ℚ) ^ 52 + 1 ≤ m := by exact_mod_cast (by omega : 2 ^ 52 + 1 ≤ m)
      linarith
  · rcases lt_trichotomy i m with hlt | rfl | hgt
    · left
      have hle : (i : ℚ) ≤ m - 1 := by exact_mod_cast Int.le_sub_one_of_lt hlt
      exact mul_le_mul_of_nonneg_right (hle.trans hgap) hunit.le
    · exact .inr (.inl (by rw [Int.cast_natCast]))
    · right; right
      have hle : (m : ℚ) + 1 ≤ i := by exact_mod_cast hgt
      exact mul_le_mul_of_nonneg_right hle hunit.le

end Double

/-! ## The interval of a double -/

namespace Decimal.Interval

/-- The number lies in the interval. -/
def Holds (i : Interval) (q : ℚ) : Prop :=
  if i.closed then i.low * 2 ^ i.exponent ≤ q ∧ q ≤ i.high * 2 ^ i.exponent
  else i.low * 2 ^ i.exponent < q ∧ q < i.high * 2 ^ i.exponent

theorem low_eq {m : Nat} (hm : 0 < m) (e : Int) :
    ((Interval.of m e).low : ℚ) * 2 ^ (Interval.of m e).exponent = (m - Double.gap m e / 2) * 2 ^ e := by
  show ((4 * m - (if m = 2 ^ 52 ∧ -1074 < e then 1 else 2) : Nat) : ℚ) * 2 ^ (e - 2) = _
  rw [Double.gap, zpow_sub₀ (by norm_num)]
  split
  · rw [Nat.cast_sub (by omega)]
    push_cast
    ring
  · rw [Nat.cast_sub (by omega)]
    push_cast
    ring

theorem high_eq (m : Nat) (e : Int) :
    ((Interval.of m e).high : ℚ) * 2 ^ (Interval.of m e).exponent = (m + 1 / 2) * 2 ^ e := by
  show ((4 * m + 2 : Nat) : ℚ) * 2 ^ (e - 2) = _
  rw [zpow_sub₀ (by norm_num)]
  push_cast
  ring

theorem centre_eq (m : Nat) (e : Int) :
    ((Interval.of m e).centre : ℚ) * 2 ^ (Interval.of m e).exponent = m * 2 ^ e := by
  show ((4 * m : Nat) : ℚ) * 2 ^ (e - 2) = _
  rw [zpow_sub₀ (by norm_num)]
  push_cast
  ring

/-- The interval of a double ends halfway to its neighbours; the ends belong to it if the mantissa is even. -/
theorem holds_of_iff {m : Nat} (hm : 0 < m) {e : Int} {q : ℚ} :
    (Interval.of m e).Holds q ↔
      ((m - Double.gap m e / 2) * 2 ^ e ≤ q ∧ (q = (m - Double.gap m e / 2) * 2 ^ e → m % 2 = 0)) ∧
      (q ≤ (m + 1 / 2) * 2 ^ e ∧ (q = (m + 1 / 2) * 2 ^ e → m % 2 = 0)) := by
  rw [Holds, low_eq hm, high_eq]
  have hclosed : (Interval.of m e).closed = (m % 2 == 0) := rfl
  by_cases heven : m % 2 = 0
  · rw [hclosed, if_pos (by simpa using heven)]
    simp [heven]
  · rw [hclosed, if_neg (by simpa using heven)]
    simp only [heven, imp_false, ← ne_eq]
    constructor
    · rintro ⟨hlow, hhigh⟩
      exact ⟨⟨hlow.le, hlow.ne'⟩, hhigh.le, hhigh.ne⟩
    · rintro ⟨⟨hlow, hne⟩, hhigh, hne'⟩
      exact ⟨lt_of_le_of_ne hlow hne.symm, lt_of_le_of_ne hhigh hne'⟩

theorem Holds.convex {i : Interval} {a b q : ℚ} (ha : i.Holds a) (hb : i.Holds b) (hle : a ≤ q) (hle' : q ≤ b) :
    i.Holds q := by
  unfold Holds at *
  split at ha
  next hclosed =>
    rw [if_pos hclosed] at hb ⊢
    exact ⟨ha.1.trans hle, hle'.trans hb.2⟩
  next hopen =>
    rw [if_neg hopen] at hb ⊢
    exact ⟨ha.1.trans_le hle, hle'.trans_lt hb.2⟩

theorem holds_of_lt {m : Nat} (hm : 0 < m) {e : Int} {q : ℚ} (hlow : (m - Double.gap m e / 2) * 2 ^ e < q)
    (hhigh : q < (m + 1 / 2) * 2 ^ e) : (Interval.of m e).Holds q :=
  (holds_of_iff hm).mpr ⟨⟨hlow.le, fun heq => absurd heq hlow.ne'⟩, hhigh.le, fun heq => absurd heq hhigh.ne⟩

theorem low_lt_centre (m : Nat) (e : Int) : (m - Double.gap m e / 2) * 2 ^ e < m * 2 ^ e :=
  mul_lt_mul_of_pos_right (by linarith [Double.gap_pos m e]) (by positivity)

theorem centre_lt_high (m : Nat) (e : Int) : m * 2 ^ e < (m + 1 / 2) * (2 : ℚ) ^ e :=
  mul_lt_mul_of_pos_right (by linarith) (by positivity)

theorem holds_centre {m : Nat} (hm : 0 < m) (e : Int) : (Interval.of m e).Holds (m * 2 ^ e) :=
  holds_of_lt hm (low_lt_centre m e) (centre_lt_high m e)

theorem Holds.pos {m : Nat} {e : Int} {q : ℚ} (hm : 0 < m) (h : (Interval.of m e).Holds q) : 0 < q := by
  have hm' : (1 : ℚ) ≤ m := by exact_mod_cast hm
  have hlow : (0 : ℚ) < (m - Double.gap m e / 2) * 2 ^ e :=
    mul_pos (by linarith [Double.gap_le_one m e]) (by positivity)
  exact hlow.trans_le ((holds_of_iff hm).mp h).1.1

end Decimal.Interval

namespace Double

/-- Of two numbers the greater one is the nearer one from the middle on. -/
theorem abs_sub_le_iff_of_lt {a b q : ℚ} (h : a < b) : |b - q| ≤ |a - q| ↔ (a + b) / 2 ≤ q := by
  rw [← sq_le_sq]
  constructor <;> intro <;> nlinarith

/-- Of two numbers the smaller one is the nearer one up to the middle. -/
theorem abs_sub_le_iff_of_gt {a b q : ℚ} (h : a < b) : |a - q| ≤ |b - q| ↔ q ≤ (a + b) / 2 := by
  rw [← sq_le_sq]
  constructor <;> intro <;> nlinarith

theorem high_lt_overflow {m : Nat} {e : Int} (h : Canonical m e) (hlast : m + 1 < 2 ^ 53 ∨ e < 971) :
    ((m : ℚ) + 1 / 2) * 2 ^ e < overflow := by
  obtain ⟨hbits, hlow, hhigh, hnormal⟩ := h
  have hunit : (0 : ℚ) < 2 ^ (971 : ℤ) := by positivity
  unfold overflow
  rcases hlast with hlast | hlast
  · have hm : (m : ℚ) + 1 / 2 < 2 ^ 53 - 1 / 2 := by
      have : (m : ℚ) + 1 < 2 ^ 53 := by exact_mod_cast hlast
      linarith
    have he : (2 : ℚ) ^ e ≤ 2 ^ (971 : ℤ) := zpow_le_zpow_right₀ (by norm_num) hhigh
    exact mul_lt_mul hm he (by positivity) (by norm_num)
  · have hm : (m : ℚ) + 1 / 2 ≤ 2 ^ 53 := by
      have : (m : ℚ) + 1 ≤ 2 ^ 53 := by exact_mod_cast hbits
      linarith
    have he : (2 : ℚ) ^ e ≤ 2 ^ (971 - 1 : ℤ) := zpow_le_zpow_right₀ (by norm_num) (by omega)
    calc ((m : ℚ) + 1 / 2) * 2 ^ e
        ≤ 2 ^ 53 * 2 ^ (971 - 1 : ℤ) := mul_le_mul hm he (by positivity) (by positivity)
      _ = 2 ^ 52 * 2 ^ (971 : ℤ) := by
          rw [zpow_sub₀ (by norm_num), zpow_one]
          ring
      _ < (2 ^ 53 - 1 / 2) * 2 ^ (971 : ℤ) := mul_lt_mul_of_pos_right (by norm_num) hunit

/-- The last double is odd, and its interval ends where numbers become too great. -/
theorem high_eq_overflow {m : Nat} {e : Int} (h : Canonical m e) (hlast : ¬ (m + 1 < 2 ^ 53 ∨ e < 971)) :
    ((m : ℚ) + 1 / 2) * 2 ^ e = overflow ∧ m % 2 ≠ 0 := by
  obtain ⟨hbits, hlow, hhigh, hnormal⟩ := h
  obtain rfl : m = 2 ^ 53 - 1 := by omega
  obtain rfl : e = 971 := by omega
  refine ⟨?_, by decide⟩
  rw [overflow]
  norm_num

section

variable {x : Float} {m : Nat} {e : Int} {hm : 0 < m} {q : ℚ}

theorem value?_of_parts (hparts : parts x = .finite .positive m e hm) : value? x = some ((m : ℚ) * 2 ^ e) := by
  rw [value?, hparts]
  rfl

theorem isEven_iff_of_parts (hparts : parts x = .finite .positive m e hm) : isEven x = true ↔ m % 2 = 0 := by
  simp [isEven, hparts]

theorem before_lt (m : Nat) (e : Int) : (m - gap m e) * 2 ^ e < m * 2 ^ e :=
  mul_lt_mul_of_pos_right (by linarith [gap_pos m e]) (by positivity)

theorem lt_after (m : Nat) (e : Int) : m * (2 : ℚ) ^ e < (m + 1) * 2 ^ e :=
  mul_lt_mul_of_pos_right (by linarith) (by positivity)

theorem low_eq_half (m : Nat) (e : Int) :
    (m - gap m e / 2) * 2 ^ e = ((m - gap m e) * 2 ^ e + m * 2 ^ e) / 2 := by ring

theorem high_eq_half (m : Nat) (e : Int) :
    (m + 1 / 2) * (2 : ℚ) ^ e = (m * 2 ^ e + (m + 1) * 2 ^ e) / 2 := by ring

theorem holds_of_readsAs (hparts : parts x = .finite .positive m e hm) (h : ReadsAs q x) :
    (Decimal.Interval.of m e).Holds q := by
  have hcanonical := canonical_of_parts hparts
  have heven := isEven_iff_of_parts hparts
  obtain ⟨⟨v, hv, hnearest⟩, hoverflow⟩ := h
  obtain rfl := Option.some.inj ((value?_of_parts hparts).symm.trans hv)
  rw [Decimal.Interval.holds_of_iff hm]
  constructor
  · have hlt := before_lt m e
    obtain ⟨y, hy⟩ := exists_before hm hcanonical
    obtain ⟨hle, htie⟩ := hnearest y _ hy
    rw [low_eq_half]
    refine ⟨(abs_sub_le_iff_of_lt hlt).mp hle, fun hq => ?_⟩
    have hsame := le_antisymm ((abs_sub_le_iff_of_gt hlt).mpr hq.le) hle
    exact heven.mp ((htie hsame).resolve_left hlt.ne)
  by_cases hlast : m + 1 < 2 ^ 53 ∨ e < 971
  · have hlt := lt_after m e
    obtain ⟨y, hy⟩ := exists_after hcanonical hlast
    obtain ⟨hle, htie⟩ := hnearest y _ hy
    rw [high_eq_half]
    refine ⟨(abs_sub_le_iff_of_gt hlt).mp hle, fun hq => ?_⟩
    have hsame := le_antisymm ((abs_sub_le_iff_of_lt hlt).mpr hq.ge) hle
    exact heven.mp ((htie hsame).resolve_left hlt.ne')
  · -- There is no double above; what is too great is not read.
    have hq : q < (m + 1 / 2) * 2 ^ e := by
      rw [(high_eq_overflow hcanonical hlast).1]
      exact (le_abs_self q).trans_lt hoverflow
    exact ⟨hq.le, fun heq => absurd heq hq.ne⟩

theorem readsAs_of_holds (hparts : parts x = .finite .positive m e hm) (h : (Decimal.Interval.of m e).Holds q) :
    ReadsAs q x := by
  have hcanonical := canonical_of_parts hparts
  have heven := isEven_iff_of_parts hparts
  obtain ⟨⟨hlow, hlowEven⟩, hhigh, hhighEven⟩ := (Decimal.Interval.holds_of_iff hm).mp h
  refine ⟨⟨_, value?_of_parts hparts, fun y w hw => ?_⟩, ?_⟩
  · rw [low_eq_half] at hlow hlowEven
    rw [high_eq_half] at hhigh hhighEven
    -- The number is on this side of the middle between the double and any other one.
    rcases apart hcanonical hw with hbelow | rfl | habove
    · have hlt : w < m * 2 ^ e := hbelow.trans_lt (before_lt m e)
      refine ⟨(abs_sub_le_iff_of_lt hlt).mpr (by linarith), fun heq => .inr (heven.mpr (hlowEven ?_))⟩
      have := (abs_sub_le_iff_of_gt hlt).mp heq.le
      linarith
    · exact ⟨le_refl _, fun _ => .inl rfl⟩
    · have hlt : m * 2 ^ e < w := (lt_after m e).trans_le habove
      refine ⟨(abs_sub_le_iff_of_gt hlt).mpr (by linarith), fun heq => .inr (heven.mpr (hhighEven ?_))⟩
      have := (abs_sub_le_iff_of_lt hlt).mp heq.le
      linarith
  · rw [abs_of_pos (h.pos hm)]
    by_cases hlast : m + 1 < 2 ^ 53 ∨ e < 971
    · exact hhigh.trans_lt (high_lt_overflow hcanonical hlast)
    · obtain ⟨hoverflow, hodd⟩ := high_eq_overflow hcanonical hlast
      rw [hoverflow] at hhigh hhighEven
      exact lt_of_le_of_ne hhigh fun heq => hodd (hhighEven heq)

/-- **The numbers that are read as a double are those of its interval.** -/
theorem readsAs_iff_holds (hparts : parts x = .finite .positive m e hm) :
    ReadsAs q x ↔ (Decimal.Interval.of m e).Holds q :=
  ⟨holds_of_readsAs hparts, readsAs_of_holds hparts⟩

end

end Double

end Minifier
