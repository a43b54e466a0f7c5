import Minifier.Proofs.Decimal.Interval

/-!
# The shortest decimal of a double

`shortest` tries grids of decimals, from one digit up to seventeen, and on each of them the two decimals around the
double. That finds a decimal with the fewest digits of all that are read as the double, and the nearest of those
(`shortest_spec`, and with a sign `isShortest_shortest`).

* The first digit stands at the greatest power of ten that the double reaches (`leadingPower_bounds`). So the decimals
  around it on a grid have as many digits as the grid provides, and a decimal with no more digits does not lie between
  them (`value_le_or_le`): it is on the grid, or its digits are all below the first one of the double.
* The interval is convex, so that with any decimal of so many digits it holds one of the two around the double
  (`exists_between`).
* On the last grid the decimals lie closer together than the interval is wide (`candidate?_sixteen`).
-/

namespace Minifier.Decimal

/-- The number that a decimal is. -/
def value (d : Decimal) : ℚ := d.coefficient * 10 ^ d.exponent

/-! ## The leading digit -/

theorem digits_length_le_iff {d : Decimal} {k : Nat} (hk : 0 < k) : d.digits.length ≤ k ↔ d.coefficient < 10 ^ k :=
  Nat.length_toDigits_le_iff (by decide) hk

/-- A positive number lies between the powers of ten that its count of digits gives. -/
theorem pow_length_toDigits {n : Nat} (hn : 0 < n) :
    (10 : ℚ) ^ ((Nat.toDigits 10 n).length - 1 : ℤ) ≤ n ∧ (n : ℚ) + 1 ≤ 10 ^ ((Nat.toDigits 10 n).length : ℤ) := by
  have hlt : ∀ k, 0 < k → ((Nat.toDigits 10 n).length ≤ k ↔ n < 10 ^ k) :=
    fun k hk => Nat.length_toDigits_le_iff (by decide) hk
  generalize hcount : (Nat.toDigits 10 n).length = count at hlt
  obtain ⟨count, rfl⟩ : ∃ k, count = k + 1 := Nat.exists_eq_add_one.mpr (hcount ▸ Nat.length_toDigits_pos)
  constructor
  · have hlow : 10 ^ count ≤ n := by
      rcases Nat.eq_zero_or_pos count with rfl | hpos
      · exact hn
      · have := hlt count hpos
        omega
    rw [Nat.cast_add, Nat.cast_one, Int.add_sub_cancel, zpow_natCast]
    exact_mod_cast hlow
  · have hhigh := (hlt (count + 1) (Nat.succ_pos _)).mp (Nat.le_refl _)
    rw [zpow_natCast]
    exact_mod_cast hhigh

/-- The same of a quotient that is at least one, by the digits of its whole part. -/
theorem pow_length_div {a b : Nat} (hb : 0 < b) (h : b ≤ a) :
    (10 : ℚ) ^ ((Nat.toDigits 10 (a / b)).length - 1 : ℤ) ≤ a / b ∧
      (a : ℚ) / b < 10 ^ ((Nat.toDigits 10 (a / b)).length : ℤ) := by
  obtain ⟨hlow, hhigh⟩ := pow_length_toDigits (Nat.div_pos h hb)
  refine ⟨hlow.trans Nat.cast_div_le, lt_of_lt_of_le ?_ hhigh⟩
  have hfloor := Nat.lt_floor_add_one ((a : ℚ) / b)
  rwa [Nat.floor_div_eq_div] at hfloor

/-- And of a quotient that is at most one, by those of its inverse. -/
theorem pow_neg_length_div {a b : Nat} (ha : 0 < a) (h : a ≤ b) :
    (10 : ℚ) ^ (-((Nat.toDigits 10 (b / a)).length : ℤ)) < a / b ∧
      (a : ℚ) / b ≤ 10 ^ (1 - (Nat.toDigits 10 (b / a)).length : ℤ) := by
  obtain ⟨hlow, hhigh⟩ := pow_length_div ha h
  have hquotient : (0 : ℚ) < b / a := by
    have hb : 0 < b := ha.trans_le h
    positivity
  rw [← inv_div (b : ℚ) a, zpow_neg, ← neg_sub ((Nat.toDigits 10 (b / a)).length : ℤ), zpow_neg]
  exact ⟨inv_strictAnti₀ hquotient hhigh, inv_anti₀ (by positivity) hlow⟩

/-- Such a quotient reaches the power of ten that its bound is only where it is that power. -/
theorem pow_inverse_bounds {a b : Nat} (ha : 0 < a) (h : a ≤ b) {count : Nat}
    (hcount : count = (Nat.toDigits 10 (b / a)).length) {lead : Int}
    (hlead : lead = if a * 10 ^ (count - 1) = b then 1 - (count : ℤ) else -count) :
    (10 : ℚ) ^ lead ≤ a / b ∧ (a : ℚ) / b < 10 ^ (lead + 1) := by
  obtain ⟨hlow, hhigh⟩ := pow_neg_length_div ha h
  rw [← hcount] at hlow hhigh
  have hpower : a * 10 ^ (count - 1) = b ↔ (a : ℚ) / b = 10 ^ (1 - count : ℤ) := by
    obtain ⟨j, rfl⟩ : ∃ j, count = j + 1 := Nat.exists_eq_add_one.mpr (hcount ▸ Nat.length_toDigits_pos)
    have hexponent : (1 - (j + 1 : Nat) : ℤ) = -j := by
      push_cast
      ring
    have hb : (0 : ℚ) < b := by exact_mod_cast ha.trans_le h
    rw [Nat.add_sub_cancel, hexponent, zpow_neg, zpow_natCast, div_eq_iff hb.ne', ← div_eq_inv_mul,
      eq_div_iff (by positivity)]
    exact_mod_cast Iff.rfl
  by_cases heq : a * 10 ^ (count - 1) = b
  · rw [if_pos heq] at hlead
    rw [hpower.mp heq, hlead]
    exact ⟨le_refl _, zpow_lt_zpow_right₀ (by norm_num) (Int.lt_succ _)⟩
  · rw [if_neg heq] at hlead
    rw [hlead, neg_add_eq_sub]
    exact ⟨hlow.le, lt_of_le_of_ne hhigh fun h => heq (hpower.mpr h)⟩

/-- **The leading power of a number is the greatest power of ten that it reaches.** -/
theorem leadingPower_bounds {m : Nat} (hm : 0 < m) (e : Int) :
    (10 : ℚ) ^ leadingPower m e ≤ m * 2 ^ e ∧ m * (2 : ℚ) ^ e < 10 ^ (leadingPower m e + 1) := by
  unfold leadingPower
  split
  next k =>
    have hn : 0 < m <<< k := by
      rw [Nat.shiftLeft_eq]
      positivity
    obtain ⟨hlow, hhigh⟩ := pow_length_toDigits hn
    have hvalue : ((m <<< k : Nat) : ℚ) = m * 2 ^ (Int.ofNat k) := by
      rw [Nat.shiftLeft_eq, Int.ofNat_eq_natCast, zpow_natCast]
      push_cast
      rfl
    rw [← hvalue, Int.sub_add_cancel]
    exact ⟨hlow, (lt_add_one _).trans_le hhigh⟩
  next k =>
    have hunit : 1 <<< (k + 1) = 2 ^ (k + 1) := by rw [Nat.shiftLeft_eq, Nat.one_mul]
    have hvalue : m * (2 : ℚ) ^ Int.negSucc k = m / (2 ^ (k + 1) : Nat) := by
      rw [zpow_negSucc, Nat.cast_pow, Nat.cast_ofNat, div_eq_mul_inv]
    dsimp only
    rw [hunit, hvalue]
    split
    next hle =>
      rw [Int.sub_add_cancel]
      exact pow_length_div (Nat.two_pow_pos _) hle
    next hlt => exact pow_inverse_bounds hm (Nat.le_of_not_le hlt) rfl rfl

/-! ## Grids -/

/-- Both scales of a grid come from one factor. -/
theorem Grid.exists_scale (p q : Int) : ∃ s : ℚ, 0 < s ∧
    (∀ c : Nat, ((c * (Grid.of p q).decimal : Nat) : ℚ) = c * 10 ^ p * s) ∧
    ∀ x : Nat, ((x * (Grid.of p q).binary : Nat) : ℚ) = x * 2 ^ q * s := by
  have hsplit : ∀ (b : ℚ) (n : ℤ), b ≠ 0 → b ^ n.toNat = b ^ n * b ^ (-n).toNat := by
    intro b n hb
    rw [← zpow_natCast, ← zpow_natCast, ← zpow_add₀ hb]
    congr 1
    omega
  refine ⟨10 ^ (-p).toNat * 2 ^ (-q).toNat, by positivity, fun c => ?_, fun x => ?_⟩
  · show ((c * 10 ^ p.toNat <<< (-q).toNat : Nat) : ℚ) = _
    rw [Nat.shiftLeft_eq]
    push_cast
    rw [hsplit 10 p (by norm_num)]
    ring
  · show ((x * 10 ^ (-p).toNat <<< q.toNat : Nat) : ℚ) = _
    rw [Nat.shiftLeft_eq]
    push_cast
    rw [hsplit 2 q (by norm_num)]
    ring

theorem Grid.le_iff (p q : Int) (c x : Nat) :
    c * (Grid.of p q).decimal ≤ x * (Grid.of p q).binary ↔ (c : ℚ) * 10 ^ p ≤ x * 2 ^ q := by
  obtain ⟨s, hs, hdecimal, hbinary⟩ := Grid.exists_scale p q
  rw [← @Nat.cast_le ℚ, hdecimal, hbinary]
  exact mul_le_mul_iff_of_pos_right hs

theorem Grid.ge_iff (p q : Int) (c x : Nat) :
    x * (Grid.of p q).binary ≤ c * (Grid.of p q).decimal ↔ x * 2 ^ q ≤ (c : ℚ) * 10 ^ p := by
  obtain ⟨s, hs, hdecimal, hbinary⟩ := Grid.exists_scale p q
  rw [← @Nat.cast_le ℚ, hdecimal, hbinary]
  exact mul_le_mul_iff_of_pos_right hs

theorem Grid.decimal_pos (p q : Int) : 0 < (Grid.of p q).decimal := by
  show 0 < 10 ^ p.toNat <<< (-q).toNat
  rw [Nat.shiftLeft_eq]
  positivity

namespace Interval

theorem contains_iff (i : Interval) (p : Int) (c : Nat) :
    i.contains (Grid.of p i.exponent) c = true ↔ i.Holds (c * 10 ^ p) := by
  rw [contains, Holds]
  split
  · rw [Bool.and_eq_true, decide_eq_true_eq, decide_eq_true_eq, Grid.le_iff, Grid.ge_iff]
  · rw [Bool.and_eq_true, decide_eq_true_eq, decide_eq_true_eq, ← not_le, ← not_le, Grid.le_iff, Grid.ge_iff, not_le,
      not_le]

/-- The greatest decimal of a grid up to the centre. -/
def below (i : Interval) (p : Int) : Nat :=
  i.centre * (Grid.of p i.exponent).binary / (Grid.of p i.exponent).decimal

theorem below_bounds (i : Interval) (p : Int) :
    (i.below p : ℚ) * 10 ^ p ≤ i.centre * 2 ^ i.exponent ∧
      i.centre * 2 ^ i.exponent < ((i.below p : ℚ) + 1) * 10 ^ p := by
  constructor
  · rw [← Grid.le_iff]
    exact Nat.div_mul_le_self _ _
  · have hlt : i.centre * (Grid.of p i.exponent).binary
        < (i.below p + 1) * (Grid.of p i.exponent).decimal :=
      Nat.lt_mul_of_div_lt (Nat.lt_succ_self _) (Grid.decimal_pos _ _)
    rw [← not_le, Grid.le_iff, not_le] at hlt
    exact_mod_cast hlt

theorem choose?_eq_none_iff {i : Interval} {tie : Tie} {p : Int} :
    i.choose? tie (Grid.of p i.exponent) = none ↔
      ¬ i.Holds (i.below p * 10 ^ p) ∧ ¬ i.Holds ((i.below p + 1 : Nat) * 10 ^ p) := by
  unfold choose?
  dsimp only
  rw [← below, ← contains_iff, ← contains_iff]
  generalize Grid.of p i.exponent = g
  cases i.contains g (i.below p) <;> cases i.contains g (i.below p + 1)
  · simp
  · simp
  · simp
  · dsimp only
    cases compare (2 * (i.centre * g.binary)) ((2 * i.below p + 1) * g.decimal) <;> cases tie <;> simp

/-- The decimal that is chosen is the lower or the upper one of the two around the centre. It lies in the interval, and
if the other one does so too, the centre is on its side of the middle. -/
theorem choose?_cases {i : Interval} {tie : Tie} {p : Int} {c : Nat}
    (h : i.choose? tie (Grid.of p i.exponent) = some c) :
    i.Holds (c * 10 ^ p) ∧
      (c = i.below p ∧ (i.Holds ((i.below p + 1 : Nat) * 10 ^ p) →
          2 * (i.centre * (Grid.of p i.exponent).binary) ≤ (2 * i.below p + 1) * (Grid.of p i.exponent).decimal) ∨
        c = i.below p + 1 ∧ (i.Holds (i.below p * 10 ^ p) →
          (2 * i.below p + 1) * (Grid.of p i.exponent).decimal ≤ 2 * (i.centre * (Grid.of p i.exponent).binary))) := by
  unfold choose? at h
  dsimp only at h
  rw [← below] at h
  simp only [← contains_iff]
  generalize Grid.of p i.exponent = g at *
  split at h
  next => cases h
  next hbelow habove =>
    cases h
    exact ⟨hbelow, .inl ⟨rfl, fun hother => absurd hother (by rw [habove]; decide)⟩⟩
  next hbelow habove =>
    cases h
    exact ⟨habove, .inr ⟨rfl, fun hother => absurd hother (by rw [hbelow]; decide)⟩⟩
  next hbelow habove =>
    split at h
    next hcompare =>
      cases h
      exact ⟨hbelow, .inl ⟨rfl, fun _ => (Nat.compare_eq_lt.mp hcompare).le⟩⟩
    next hcompare =>
      cases h
      exact ⟨habove, .inr ⟨rfl, fun _ => (Nat.compare_eq_gt.mp hcompare).le⟩⟩
    next hcompare =>
      cases h
      exact ⟨habove, .inr ⟨rfl, fun _ => (Nat.compare_eq_eq.mp hcompare).ge⟩⟩
    next hcompare =>
      have heq := Nat.compare_eq_eq.mp hcompare
      cases h
      rcases Nat.mod_two_eq_zero_or_one (i.below p) with heven | hodd
      · rw [heven, Nat.add_zero]
        exact ⟨hbelow, .inl ⟨rfl, fun _ => heq.le⟩⟩
      · rw [hodd]
        exact ⟨habove, .inr ⟨rfl, fun _ => heq.ge⟩⟩

/-- Of the two decimals around the centre, none that lies in the interval is nearer than the one that is chosen. -/
theorem choose?_nearest {i : Interval} {tie : Tie} {p : Int} {c : Nat}
    (h : i.choose? tie (Grid.of p i.exponent) = some c) {k : Nat} (hk : k = i.below p ∨ k = i.below p + 1)
    (hholds : i.Holds (k * 10 ^ p)) :
    |(c : ℚ) * 10 ^ p - i.centre * 2 ^ i.exponent| ≤ |(k : ℚ) * 10 ^ p - i.centre * 2 ^ i.exponent| := by
  obtain ⟨hlow, hhigh⟩ := i.below_bounds p
  have hbelow := abs_of_nonpos (sub_nonpos.mpr hlow)
  have habove := abs_of_nonneg (sub_nonneg.mpr hhigh.le)
  have hcases := (choose?_cases h).2
  rw [← Nat.mul_assoc, Grid.ge_iff, Grid.le_iff] at hcases
  rcases hcases with ⟨rfl, hside⟩ | ⟨rfl, hside⟩
  · rcases hk with rfl | rfl
    · exact le_refl _
    · have hside := hside hholds
      push_cast at hside ⊢
      rw [hbelow, habove]
      linarith
  · rcases hk with rfl | rfl
    · have hside := hside hholds
      push_cast at hside ⊢
      rw [hbelow, habove]
      linarith
    · exact le_refl _

end Interval

/-! ## Candidates with a given number of digits -/

/-- A decimal with few enough digits does not lie between two neighbours of a grid. -/
theorem value_le_or_le {d : Decimal} {p : Int} {c k : Nat} (hc : 10 ^ k ≤ c) (hd : d.coefficient < 10 ^ (k + 1)) :
    d.value ≤ c * 10 ^ p ∨ ((c : ℚ) + 1) * 10 ^ p ≤ d.value := by
  have hstep : (0 : ℚ) < 10 ^ p := by positivity
  by_cases hp : p ≤ d.exponent
  · -- It is itself a decimal of the grid.
    obtain ⟨j, hj⟩ := Int.le.dest hp
    have hvalue : d.value = (d.coefficient * 10 ^ j : Nat) * 10 ^ p := by
      rw [value, ← hj, zpow_add₀ (by norm_num), zpow_natCast]
      push_cast
      ring
    rw [hvalue]
    rcases Nat.lt_or_ge c (d.coefficient * 10 ^ j) with hlt | hge
    · exact .inr (mul_le_mul_of_nonneg_right (by exact_mod_cast hlt) hstep.le)
    · exact .inl (mul_le_mul_of_nonneg_right (by exact_mod_cast hge) hstep.le)
  · -- It has its last digit below the grid, and so its first one below the first one of the grid.
    left
    have hc : (10 : ℚ) ^ k ≤ c := by exact_mod_cast hc
    have hd : (d.coefficient : ℚ) ≤ 10 ^ (k + 1) := by exact_mod_cast hd.le
    have hexponent : (10 : ℚ) ^ d.exponent ≤ 10 ^ (p - 1) := zpow_le_zpow_right₀ (by norm_num) (by omega)
    calc d.value
        ≤ 10 ^ (k + 1) * 10 ^ (p - 1) := mul_le_mul hd hexponent (by positivity) (by positivity)
      _ = 10 ^ k * 10 ^ p := by
          rw [zpow_sub₀ (by norm_num), zpow_one]
          ring
      _ ≤ c * 10 ^ p := mul_le_mul_of_nonneg_right hc hstep.le

/-- The coefficient that is chosen when `k` digits follow the leading one. -/
def candidate? (tie : Tie) (m : Nat) (e : Int) (k : Nat) : Option Nat :=
  (Interval.of m e).choose? tie (Grid.of (leadingPower m e - k) (Interval.of m e).exponent)

section

variable {tie : Tie} {m : Nat} {e : Int}

theorem pow_leadingPower (m : Nat) (e : Int) (k : Nat) :
    (10 : ℚ) ^ leadingPower m e = 10 ^ k * 10 ^ (leadingPower m e - k) := by
  rw [← zpow_natCast, ← zpow_add₀ (by norm_num)]
  congr 1
  omega

/-- The decimals around a double have as many digits as the grid provides. -/
theorem below_digits (hm : 0 < m) (k : Nat) :
    10 ^ k ≤ (Interval.of m e).below (leadingPower m e - k) ∧
      (Interval.of m e).below (leadingPower m e - k) < 10 ^ (k + 1) := by
  obtain ⟨hlow, hhigh⟩ := leadingPower_bounds hm e
  obtain ⟨hbelow, habove⟩ := (Interval.of m e).below_bounds (leadingPower m e - k)
  rw [Interval.centre_eq] at hbelow habove
  have hstep : (0 : ℚ) < 10 ^ (leadingPower m e - k) := by positivity
  have hlead := pow_leadingPower m e k
  constructor
  · have hlt : (10 : ℚ) ^ k < (Interval.of m e).below (leadingPower m e - k) + 1 := by
      rw [← mul_lt_mul_iff_of_pos_right hstep, ← hlead]
      exact hlow.trans_lt habove
    exact Nat.le_of_lt_succ (by exact_mod_cast hlt)
  · have hlt : ((Interval.of m e).below (leadingPower m e - k) : ℚ)
        < 10 ^ (k + 1) := by
      rw [← mul_lt_mul_iff_of_pos_right hstep, pow_succ, mul_right_comm, ← hlead, ← zpow_add_one₀ (by norm_num)]
      exact hbelow.trans_lt hhigh
    exact_mod_cast hlt

/-- A decimal that is read as the double and has as many digits has a neighbour of the double between them. -/
theorem exists_between (hm : 0 < m) {k : Nat} {d : Decimal} (hd : d.coefficient < 10 ^ (k + 1))
    (h : (Interval.of m e).Holds d.value) :
    ∃ c : Nat, (c = (Interval.of m e).below (leadingPower m e - k) ∨
        c = (Interval.of m e).below (leadingPower m e - k) + 1) ∧
      (Interval.of m e).Holds (c * 10 ^ (leadingPower m e - k)) ∧
      |(c : ℚ) * 10 ^ (leadingPower m e - k) - m * 2 ^ e| ≤ |d.value - m * 2 ^ e| := by
  obtain ⟨hbelow, habove⟩ := (Interval.of m e).below_bounds (leadingPower m e - k)
  rw [Interval.centre_eq] at hbelow habove
  have hcentre := Interval.holds_centre hm e
  rcases value_le_or_le (below_digits hm k).1 hd with hle | hle
  · refine ⟨_, .inl rfl, h.convex hcentre hle hbelow, ?_⟩
    rw [abs_of_nonpos (by linarith), abs_of_nonpos (by linarith)]
    linarith
  · refine ⟨_, .inr rfl, ?_, ?_⟩
    · push_cast
      exact hcentre.convex h habove.le hle
    · push_cast
      rw [abs_of_nonneg (by linarith), abs_of_nonneg (by linarith)]
      linarith

/-- Without a candidate, no decimal with that many digits is read as the double. -/
theorem not_holds_of_candidate? (hm : 0 < m) {k : Nat} (h : candidate? tie m e k = none) {d : Decimal}
    (hd : d.coefficient < 10 ^ (k + 1)) : ¬ (Interval.of m e).Holds d.value := by
  intro hholds
  obtain ⟨c, hc, hcHolds, -⟩ := exists_between hm hd hholds
  obtain ⟨hbelow, habove⟩ := Interval.choose?_eq_none_iff.mp h
  rcases hc with rfl | rfl
  · exact hbelow hcHolds
  · exact habove hcHolds

/-- A candidate is read as the double, and no decimal with as many digits that is read so is nearer. -/
theorem candidate?_eq_some (hm : 0 < m) {k c : Nat} (h : candidate? tie m e k = some c) :
    (Interval.of m e).Holds (value ⟨c, leadingPower m e - k⟩) ∧ c ≤ 10 ^ (k + 1) ∧
      ∀ d : Decimal, d.coefficient < 10 ^ (k + 1) → (Interval.of m e).Holds d.value →
        |value ⟨c, leadingPower m e - k⟩ - m * 2 ^ e| ≤ |d.value - m * 2 ^ e| := by
  obtain ⟨hholds, hcases⟩ := Interval.choose?_cases h
  have hle : c ≤ (Interval.of m e).below (leadingPower m e - k) + 1 := by omega
  refine ⟨hholds, hle.trans (below_digits hm k).2, fun d hd hdHolds => ?_⟩
  obtain ⟨c', hc', hcHolds, hnear⟩ := exists_between hm hd hdHolds
  have hchosen := Interval.choose?_nearest h hc' hcHolds
  rw [Interval.centre_eq] at hchosen
  exact hchosen.trans hnear

/-- Seventeen digits are always enough, because then the decimals lie closer than the interval is wide. -/
theorem candidate?_sixteen (hm : 0 < m) (h : Double.Canonical m e) : candidate? tie m e 16 ≠ none := by
  intro hnone
  obtain ⟨hnotBelow, hnotAbove⟩ := Interval.choose?_eq_none_iff.mp hnone
  obtain ⟨hlow, hhigh⟩ := (Interval.of m e).below_bounds (leadingPower m e - (16 : Nat))
  have hlead := (leadingPower_bounds hm e).1
  rw [Interval.centre_eq] at hlow hhigh
  rw [pow_leadingPower m e 16] at hlead
  rw [Nat.cast_succ] at hnotAbove
  have hbelow := le_of_not_gt fun hlt =>
    hnotBelow (Interval.holds_of_lt hm hlt (hlow.trans_lt (Interval.centre_lt_high m e)))
  have habove := le_of_not_gt fun hlt =>
    hnotAbove (Interval.holds_of_lt hm ((Interval.low_lt_centre m e).trans hhigh) hlt)
  -- The step of the grid is at least as wide as the interval, and a seventeenth digit is worth that much.
  have hwidth : (1 / 2 + Double.gap m e / 2) * 2 ^ e ≤ 10 ^ (leadingPower m e - (16 : Nat)) := by
    generalize (10 : ℚ) ^ (leadingPower m e - (16 : Nat)) = step at *
    linarith
  have hworth : 10 ^ 16 * (1 / 2 + Double.gap m e / 2) * 2 ^ e ≤ m * 2 ^ e := by
    rw [mul_assoc]
    exact (mul_le_mul_of_nonneg_left hwidth (by positivity)).trans hlead
  have hmantissa := le_of_mul_le_mul_right hworth (by positivity)
  unfold Double.gap at hmantissa
  split at hmantissa
  next hpower =>
    rw [hpower.1] at hmantissa
    norm_num at hmantissa
  next =>
    have hbits : (m : ℚ) < 2 ^ 53 := by exact_mod_cast h.bits
    norm_num at hmantissa hbits
    linarith

end

/-! ## Trailing zeros -/

theorem value_trim (limit : Nat) (d : Decimal) : (trim limit d).value = d.value := by
  induction limit generalizing d with
  | zero => rfl
  | succ limit ih =>
      rw [trim]
      split
      next hzero =>
        have hcoefficient : (d.coefficient : ℚ) = (d.coefficient / 10 : Nat) * 10 := by
          exact_mod_cast (Nat.div_mul_cancel (Nat.dvd_of_mod_eq_zero hzero.1)).symm
        rw [ih, value, value, hcoefficient, zpow_add_one₀ (by norm_num)]
        ring
      next => rfl

theorem coefficient_trim_le (limit : Nat) (d : Decimal) : (trim limit d).coefficient ≤ d.coefficient := by
  induction limit generalizing d with
  | zero => exact Nat.le_refl _
  | succ limit ih =>
      rw [trim]
      split
      next => exact (ih _).trans (Nat.div_le_self _ _)
      next => exact Nat.le_refl _

/-- All zeros are moved where the limit allows for as many digits as there are. -/
theorem coefficient_trim_mod {limit : Nat} {d : Decimal} (hpos : 0 < d.coefficient)
    (hlimit : d.coefficient < 10 ^ limit) : (trim limit d).coefficient % 10 ≠ 0 := by
  induction limit generalizing d with
  | zero => omega
  | succ limit ih =>
      rw [trim]
      split
      next hzero => exact ih (by dsimp only; omega) (by dsimp only; rw [Nat.pow_succ] at hlimit; omega)
      next hnot => omega

/-! ## The shortest decimal -/

section

variable {m : Nat} {e : Int}

theorem findSome?_range {β : Type} {f : Nat → Option β} {n k : Nat} {b : β} (hk : k < n) (hnone : ∀ j < k, f j = none)
    (h : f k = some b) : (List.range n).findSome? f = some b := by
  obtain ⟨rest, rfl⟩ := Nat.exists_eq_add_of_lt hk
  rw [Nat.add_assoc, List.range_add, List.range_succ_eq_map, List.map_cons, Nat.add_zero]
  exact List.findSome?_eq_some_iff.mpr ⟨_, _, _, rfl, h, fun j hj => hnone j (List.mem_range.mp hj)⟩

/-- The shortest decimal is the first candidate, without its zeros. -/
theorem exists_shortest (tie : Tie) (hm : 0 < m) (h : Double.Canonical m e) :
    ∃ k c, k < mostDigits ∧ candidate? tie m e k = some c ∧ (∀ j < k, candidate? tie m e j = none) ∧
      shortest tie m e = trim (mostDigits + 1) ⟨c, leadingPower m e - k⟩ := by
  have hexists : ∃ k, candidate? tie m e k ≠ none := ⟨16, candidate?_sixteen hm h⟩
  obtain ⟨c, hc⟩ := Option.ne_none_iff_exists'.mp (Nat.find_spec hexists)
  have hbound : Nat.find hexists < mostDigits := Nat.lt_succ_of_le (Nat.find_min' hexists (candidate?_sixteen hm h))
  have hleast : ∀ j < Nat.find hexists, candidate? tie m e j = none := fun j hj => not_not.mp (Nat.find_min hexists hj)
  refine ⟨_, c, hbound, hc, hleast, ?_⟩
  have hfound : ((List.range mostDigits).findSome? fun k =>
      (candidate? tie m e k).map fun c => (⟨c, leadingPower m e - k⟩ : Decimal))
        = some ⟨c, leadingPower m e - Nat.find hexists⟩ :=
    findSome?_range hbound (fun j hj => by rw [hleast j hj]; rfl) (by rw [hc]; rfl)
  unfold shortest
  dsimp only
  exact congrArg (fun found => trim (mostDigits + 1) (found.getD ⟨0, 0⟩)) hfound

/-- **The shortest decimal of a double.** It is read as the double and ends in no zero; no decimal with fewer digits is
read as the double, and none with as many that is nearer. -/
theorem shortest_spec (tie : Tie) (hm : 0 < m) (h : Double.Canonical m e) :
    (Interval.of m e).Holds (shortest tie m e).value ∧ (shortest tie m e).coefficient % 10 ≠ 0 ∧
      ∀ d : Decimal, (Interval.of m e).Holds d.value →
        (shortest tie m e).digits.length ≤ d.digits.length ∧
        (d.digits.length = (shortest tie m e).digits.length →
          |(shortest tie m e).value - m * 2 ^ e| ≤ |d.value - m * 2 ^ e|) := by
  obtain ⟨k, c, hk, hcandidate, hnone, hshortest⟩ := exists_shortest tie hm h
  obtain ⟨hholds, hle, hnearest⟩ := candidate?_eq_some hm hcandidate
  have hvalue : (shortest tie m e).value = value ⟨c, leadingPower m e - k⟩ := by rw [hshortest, value_trim]
  have hpos : 0 < c := by
    rw [Nat.pos_iff_ne_zero]
    rintro rfl
    have hzero := hholds.pos hm
    simp [value] at hzero
  have hlimit : c < 10 ^ (mostDigits + 1) :=
    hle.trans_lt (Nat.pow_lt_pow_right (by decide) (Nat.succ_lt_succ hk))
  have hmod : (shortest tie m e).coefficient % 10 ≠ 0 := by
    rw [hshortest]
    exact coefficient_trim_mod hpos hlimit
  have hlength : (shortest tie m e).digits.length ≤ k + 1 := by
    -- A candidate with one digit more is a power of ten, all of whose zeros are moved.
    have hcoefficient : (shortest tie m e).coefficient ≤ c := by
      rw [hshortest]
      exact coefficient_trim_le _ _
    rw [digits_length_le_iff (Nat.succ_pos k)]
    refine lt_of_le_of_ne (hcoefficient.trans hle) fun heq => hmod ?_
    rw [heq, Nat.pow_succ, Nat.mul_mod_left]
  refine ⟨hvalue ▸ hholds, hmod, fun d hd => ⟨?_, fun hsame => ?_⟩⟩
  · by_contra hshorter
    obtain ⟨j, hj⟩ : ∃ j, d.digits.length = j + 1 := Nat.exists_eq_add_one.mpr Nat.length_toDigits_pos
    have hcoefficient : d.coefficient < 10 ^ (j + 1) := (digits_length_le_iff (Nat.succ_pos j)).mp hj.le
    exact not_holds_of_candidate? hm (hnone j (by omega)) hcoefficient hd
  · rw [hvalue]
    exact hnearest d ((digits_length_le_iff (Nat.succ_pos k)).mp (hsame ▸ hlength)) hd

end

/-! ## Signs -/

open Float.Model.UnpackedFloat (Sign)

/-- The number with a sign. -/
def signed : Sign → ℚ → ℚ
  | .positive, q => q
  | .negative, q => -q

/-- The decimal has the fewest digits of all that with the sign are read as the double. It ends in no zero, and none
with as many digits is nearer to the double. -/
structure IsShortest (d : Decimal) (s : Sign) (x : Float) : Prop where
  last : d.coefficient % 10 ≠ 0
  readsAs : Double.ReadsAs (signed s d.value) x
  fewest : ∀ d' : Decimal, Double.ReadsAs (signed s d'.value) x → d.digits.length ≤ d'.digits.length
  nearest : ∀ (d' : Decimal) (v : ℚ), Double.ReadsAs (signed s d'.value) x → d'.digits.length = d.digits.length →
    Double.value? x = some v → |signed s d.value - v| ≤ |signed s d'.value - v|

theorem readsAs_signed_iff {x : Float} {s : Sign} {m : Nat} {e : Int} {hm : 0 < m}
    (hparts : Double.parts x = .finite s m e hm) {q : ℚ} :
    Double.ReadsAs (signed s q) x ↔ (Interval.of m e).Holds q := by
  cases s with
  | positive => exact Double.readsAs_iff_holds hparts
  | negative =>
      have hneg : Double.parts (-x) = .finite .positive m e hm := by
        rw [Double.parts_neg, hparts]
        rfl
      rw [← Double.readsAs_iff_holds hneg]
      constructor
      · intro h
        have := h.neg
        rwa [signed, neg_neg] at this
      · intro h
        have := h.neg
        rwa [Double.neg_neg] at this

theorem value?_signed {x : Float} {s : Sign} {m : Nat} {e : Int} {hm : 0 < m}
    (hparts : Double.parts x = .finite s m e hm) : Double.value? x = some (signed s (m * 2 ^ e)) := by
  rw [Double.value?, hparts]
  cases s <;> simp [signed, Sign.apply]

theorem abs_signed_sub (s : Sign) (q v : ℚ) : |signed s q - signed s v| = |q - v| := by
  cases s with
  | positive => rfl
  | negative => rw [signed, signed, neg_sub_neg, abs_sub_comm]

/-- **The shortest decimal of a double** has the fewest digits of all that are read as the double. -/
theorem isShortest_shortest (tie : Tie) {x : Float} {s : Sign} {m : Nat} {e : Int} {hm : 0 < m}
    (hparts : Double.parts x = .finite s m e hm) : IsShortest (shortest tie m e) s x := by
  obtain ⟨hholds, hlast, hall⟩ := shortest_spec tie hm (Double.canonical_of_parts hparts)
  refine ⟨hlast, (readsAs_signed_iff hparts).mpr hholds, fun d hd => ?_, fun d v hd hlength hv => ?_⟩
  · exact (hall d ((readsAs_signed_iff hparts).mp hd)).1
  · obtain rfl := Option.some.inj ((value?_signed hparts).symm.trans hv)
    rw [abs_signed_sub, abs_signed_sub]
    exact (hall d ((readsAs_signed_iff hparts).mp hd)).2 hlength

end Minifier.Decimal
