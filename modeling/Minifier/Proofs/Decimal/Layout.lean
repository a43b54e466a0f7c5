import Minifier.Proofs.Decimal.Shortest
import Minifier.Proofs.Value.Literal

/-!
# How numbers are written

The digits of a number are laid out around a point, with zeros where there are no digits, or with a point after the
first of them and a power of ten. Both layouts are the same placement of a point (`splits_splitAt`, `scientific_eq`),
for which it is enough to know that the digits have no zero at either end (`Significant`).

Main result: the text of a finite number that is not zero denotes the number's shortest decimal exactly, and has nothing
superfluous in it (`Value.numberText_denotes`).
-/

namespace Minifier

open Numeral (natOfDigits)

/-- Nothing in the text of a number is superfluous. -/
structure DecimalText.Tidy (t : DecimalText) : Prop where
  whole_ne_nil : t.whole ≠ []
  /-- a zero at the front stands alone -/
  whole_zero : t.whole.head? = some '0' → t.whole = ['0']
  fraction_ne_nil : ∀ ds ∈ t.fraction, ds ≠ []
  /-- no zero at the end of the fraction -/
  fraction_last : ∀ ds ∈ t.fraction, ds.getLast? ≠ some '0'
  /-- with an exponent, one digit that is not zero stands before the point -/
  leading : ∀ p ∈ t.exponent, t.whole.length = 1 ∧ t.whole ≠ ['0']
  /-- the exponent has a sign, and no zero at its front -/
  exponent : ∀ p ∈ t.exponent, p.mark = 'e' ∧ p.sign ≠ .none ∧ p.digits.head? ≠ some '0'

namespace Decimal

/-- Digits with no zero at either end. -/
structure Significant (ds : List Char) : Prop where
  allDigits : AllDigits ds
  ne_nil : ds ≠ []
  head : ds.head? ≠ some '0'
  last : ds.getLast? ≠ some '0'

theorem head_toDigits {n : Nat} (h : 0 < n) : (Nat.toDigits 10 n).head? ≠ some '0' := by
  obtain ⟨c, cs, hcs, hc⟩ := toDigits_head h
  rw [hcs]
  exact fun heq => hc (Option.some.inj heq)

theorem getLast_toDigits {n : Nat} (h : n % 10 ≠ 0) : (Nat.toDigits 10 n).getLast? ≠ some '0' := by
  have hchar : ∀ k < 10, k ≠ 0 → k.digitChar ≠ '0' := by decide
  have hlast : (Nat.toDigits 10 n).getLast? = some (n % 10).digitChar := by
    rcases Nat.lt_or_ge n 10 with hlt | hge
    · rw [Nat.toDigits_of_lt_base hlt, Nat.mod_eq_of_lt hlt]
      rfl
    · rw [Nat.toDigits_of_base_le (by decide) hge, List.getLast?_append]
      rfl
  rw [hlast]
  exact fun heq => hchar _ (Nat.mod_lt n (by decide)) h (Option.some.inj heq)

theorem significant_digits {d : Decimal} (h : d.coefficient % 10 ≠ 0) : Significant d.digits where
  allDigits := isDigit_of_mem_toDigits
  ne_nil := Nat.toDigits_ne_nil
  head := head_toDigits (by omega)
  last := getLast_toDigits h

theorem natOfDigits_toDigits (n : Nat) : natOfDigits (Nat.toDigits 10 n) = n :=
  Nat.ofDigitChars_toDigits (by decide) (by decide)

theorem natOfDigits_zeros (n : Nat) : natOfDigits (List.replicate n '0') = 0 := by
  induction n with
  | zero => rfl
  | succ n ih =>
      rw [List.replicate_succ', Numeral.natOfDigits_append, ih]
      rfl

theorem allDigits_zeros (n : Nat) : AllDigits (List.replicate n '0') := by
  intro c hc
  rw [List.eq_of_mem_replicate hc]
  rfl

theorem allDigits_append {ds es : List Char} (hds : AllDigits ds) (hes : AllDigits es) : AllDigits (ds ++ es) :=
  fun c hc => (List.mem_append.mp hc).elim (hds c) (hes c)

/-! ## Positional notation -/

/-- The digits before and after a point that is put at a place among given ones. -/
structure Splits (ds : List Char) (point : Int) (whole fraction : List Char) : Prop where
  allDigits_whole : AllDigits whole
  allDigits_fraction : AllDigits fraction
  zero : point ≤ 0 → whole = ['0']
  length : 0 < point → whole.length = point
  head : 0 < point → whole.head? ≠ some '0'
  last : fraction.getLast? ≠ some '0'
  value : (natOfDigits (whole ++ fraction) : ℚ) * 10 ^ (-fraction.length : ℤ)
    = natOfDigits ds * 10 ^ (point - ds.length)

section

variable {ds : List Char} (h : Significant ds)
include h

theorem splits_before (n : Nat) : Splits ds (-n) ['0'] (List.replicate n '0' ++ ds) where
  allDigits_whole := by decide
  allDigits_fraction := allDigits_append (allDigits_zeros n) h.allDigits
  zero := fun _ => rfl
  length := by omega
  head := by omega
  last := by
    rw [List.getLast?_append_of_ne_nil _ h.ne_nil]
    exact h.last
  value := by
    rw [List.singleton_append, ← List.cons_append, ← List.replicate_succ, Numeral.natOfDigits_append, natOfDigits_zeros,
      Nat.zero_mul, Nat.zero_add, List.length_append, List.length_replicate]
    congr 2
    omega

theorem splits_after (n : Nat) : Splits ds (ds.length + n) (ds ++ List.replicate n '0') [] where
  allDigits_whole := allDigits_append h.allDigits (allDigits_zeros n)
  allDigits_fraction := by decide
  zero := by
    have := List.length_pos_iff.mpr h.ne_nil
    omega
  length := by simp
  head := by
    rw [List.head?_append_of_ne_nil _ h.ne_nil]
    exact fun _ => h.head
  last := by decide
  value := by
    rw [List.append_nil, Numeral.natOfDigits_append, natOfDigits_zeros, List.length_replicate, add_sub_cancel_left]
    simp

theorem splits_between {n : Nat} (hpos : 0 < n) (hlt : n < ds.length) : Splits ds n (ds.take n) (ds.drop n) where
  allDigits_whole := fun c hc => h.allDigits c (List.mem_of_mem_take hc)
  allDigits_fraction := fun c hc => h.allDigits c (List.mem_of_mem_drop hc)
  zero := by omega
  length := by simp [hlt.le]
  head := by
    rw [List.head?_take, if_neg (Nat.ne_of_gt hpos)]
    exact fun _ => h.head
  last := by
    rw [List.getLast?_drop, if_neg (Nat.not_le_of_lt hlt)]
    exact h.last
  value := by
    rw [List.take_append_drop, List.length_drop]
    congr 2
    omega

/-- The point is put before the digits, after them, or between two of them. -/
theorem splits_splitAt (point : Int) : Splits ds point (splitAt ds point).1 (splitAt ds point).2 := by
  unfold splitAt
  dsimp only
  by_cases hpoint : point ≤ 0
  · obtain ⟨n, rfl⟩ : ∃ n : Nat, point = -n := ⟨(-point).toNat, by omega⟩
    rw [if_pos hpoint, Int.neg_neg, Int.toNat_natCast]
    exact splits_before h n
  rw [if_neg hpoint]
  obtain ⟨n, rfl⟩ : ∃ n : Nat, point = n := ⟨point.toNat, by omega⟩
  rw [Int.toNat_natCast]
  by_cases hlt : n < ds.length
  · rw [Nat.sub_eq_zero_of_le hlt.le, List.replicate_zero, List.append_nil]
    exact splits_between h (by omega) hlt
  · obtain ⟨k, rfl⟩ := Nat.exists_eq_add_of_le (Nat.le_of_not_lt hlt)
    rw [List.take_of_length_le (by omega), List.drop_of_length_le (by omega), Nat.add_sub_cancel_left, Nat.cast_add]
    exact splits_after h k

end

/-- Text with a point has no point if no digits would follow. -/
theorem positional_eq (ds : List Char) (point : Int) :
    positional false ds point = (splitAt ds point).1 ++
      DecimalText.fractionText (if (splitAt ds point).2 = [] then none else some (splitAt ds point).2) := by
  unfold positional
  split
  next whole hsplit => simp [hsplit, DecimalText.fractionText]
  next whole fraction hne hsplit =>
    have hfraction : fraction ≠ [] := fun hnil => hne (by rw [hnil])
    simp [hsplit, DecimalText.fractionText, hfraction]

namespace Splits

variable {ds whole fraction : List Char} {point : Int}

theorem whole_ne_nil (h : Splits ds point whole fraction) : whole ≠ [] := by
  rintro rfl
  by_cases hpoint : point ≤ 0
  · exact absurd (h.zero hpoint) (by decide)
  · have hlength := h.length (by omega)
    rw [List.length_nil] at hlength
    omega

/-- The digits with their point, which is left out where no digits follow it, and with a power of ten. -/
def toText (h : Splits ds point whole fraction) (power : Option ExponentPart) : DecimalText where
  whole
  fraction := if fraction = [] then none else some fraction
  exponent := power
  allDigits_whole := h.allDigits_whole
  allDigits_fraction := by
    intro ds hds
    split at hds
    · cases hds
    · cases hds
      exact h.allDigits_fraction
  someDigit := .inl h.whole_ne_nil

theorem mem_fraction {h : Splits ds point whole fraction} {power : Option ExponentPart} {es : List Char}
    (hes : es ∈ (h.toText power).fraction) : es = fraction ∧ fraction ≠ [] := by
  change es ∈ (if fraction = [] then none else some fraction) at hes
  split at hes
  next => cases hes
  next hne =>
    cases hes
    exact ⟨rfl, hne⟩

theorem getD_fraction (h : Splits ds point whole fraction) (power : Option ExponentPart) :
    (h.toText power).fraction.getD [] = fraction := by
  show (if fraction = [] then none else some fraction).getD [] = fraction
  split
  next hnil => exact hnil.symm
  next => rfl

/-- A power of ten is tidy where the point stands after the first digit. -/
theorem tidy_toText (h : Splits ds point whole fraction) {power : Option ExponentPart}
    (hpower : ∀ p ∈ power, point = 1 ∧ p.mark = 'e' ∧ p.sign ≠ .none ∧ p.digits.head? ≠ some '0') :
    (h.toText power).Tidy where
  whole_ne_nil := h.whole_ne_nil
  whole_zero := by
    intro hzero
    by_cases hpoint : point ≤ 0
    · exact h.zero hpoint
    · exact absurd hzero (h.head (by omega))
  fraction_ne_nil := fun _ hes => (mem_fraction hes).1 ▸ (mem_fraction hes).2
  fraction_last := fun _ hes => (mem_fraction hes).1 ▸ h.last
  leading := by
    intro p hp
    obtain ⟨rfl, -⟩ := hpower p hp
    have hlength := h.length (by decide)
    refine ⟨by exact_mod_cast hlength, fun hzero => h.head (by decide) ?_⟩
    change whole = ['0'] at hzero
    rw [hzero]
    rfl
  exponent := fun p hp => (hpower p hp).2

theorem value_toText (h : Splits ds point whole fraction) (power : Option ExponentPart) :
    (h.toText power).value = natOfDigits ds * 10 ^ (point - ds.length + (power.map ExponentPart.power).getD 0) := by
  rw [DecimalText.value_eq, h.getD_fraction, zpow_add₀ (by norm_num), ← mul_assoc, ← h.value, mul_assoc,
    ← zpow_add₀ (by norm_num), neg_add_eq_sub]
  rfl

end Splits

/-! ## Powers of ten -/

/-- A power of ten as it is written after a number. -/
def exponentPart (magnitude : Int) : ExponentPart where
  mark := 'e'
  sign := if 0 ≤ magnitude then .plus else .minus
  digits := Nat.toDigits 10 magnitude.natAbs
  isMark := .inl rfl
  allDigits := isDigit_of_mem_toDigits
  digits_ne_nil := Nat.toDigits_ne_nil

theorem power_exponentPart (magnitude : Int) : (exponentPart magnitude).power = magnitude := by
  unfold ExponentPart.power exponentPart
  dsimp only
  rw [natOfDigits_toDigits]
  split
  next hpositive => exact Int.natAbs_of_nonneg hpositive
  next hnegative =>
    show -(magnitude.natAbs : Int) = magnitude
    omega

theorem tidy_exponentPart {magnitude : Int} (h : magnitude ≠ 0) :
    (exponentPart magnitude).mark = 'e' ∧ (exponentPart magnitude).sign ≠ .none ∧
      (exponentPart magnitude).digits.head? ≠ some '0' := by
  refine ⟨rfl, ?_, head_toDigits (Int.natAbs_pos.mpr h)⟩
  unfold exponentPart
  dsimp only
  split <;> decide

/-- Text with an exponent has the point after the first digit. -/
theorem scientific_eq {ds : List Char} (hne : ds ≠ []) (magnitude : Int) :
    scientific ds magnitude = positional false ds 1 ++ (exponentPart magnitude).text := by
  have hmantissa : scientific ds magnitude = positional false ds 1 ++
      'e' :: (if 0 ≤ magnitude then '+' else '-') :: Nat.toDigits 10 magnitude.natAbs := by
    rcases ds with _ | ⟨first, _ | ⟨second, rest⟩⟩
    · exact absurd rfl hne
    · rfl
    · simp [scientific, positional, splitAt]
  rw [hmantissa, ExponentPart.text, exponentPart]
  split <;> rfl

/-! ## Layout -/

/-- **How digits are laid out**: positionally, or with an exponent from `10 ^ 21` on and below `10 ^ -6`. The text is
tidy and denotes the digits. -/
theorem exists_layout {ds : List Char} (h : Significant ds) (magnitude : Int) :
    ∃ t : DecimalText, t.Tidy ∧ t.text = Value.numberStyle.layout ds magnitude ∧
      t.value = natOfDigits ds * 10 ^ (magnitude + 1 - ds.length) ∧
      (t.exponent.isSome = true ↔ 21 ≤ magnitude ∨ magnitude ≤ -7) := by
  unfold Style.layout
  split
  next hrange =>
    have hrange : -6 ≤ magnitude ∧ magnitude ≤ 20 := hrange
    have hsplits := splits_splitAt h (magnitude + 1)
    refine ⟨hsplits.toText none, hsplits.tidy_toText (by simp), ?_, ?_, ?_⟩
    · show _ = positional false ds (magnitude + 1)
      rw [positional_eq]
      exact congrArg _ (List.append_nil _)
    · rw [hsplits.value_toText]
      simp
    · simp [Splits.toText]
      omega
  next hrange =>
    have hrange : ¬ (-6 ≤ magnitude ∧ magnitude ≤ 20) := hrange
    have hsplits := splits_splitAt h 1
    refine ⟨hsplits.toText (some (exponentPart magnitude)), hsplits.tidy_toText ?_, ?_, ?_, ?_⟩
    · rintro p ⟨⟩
      exact ⟨rfl, tidy_exponentPart (by omega)⟩
    · rw [scientific_eq h.ne_nil, positional_eq, List.append_assoc]
      rfl
    · rw [hsplits.value_toText, Option.map_some, Option.getD_some, power_exponentPart]
      congr 2
      ring
    · simp [Splits.toText]
      omega

example : Value.numberStyle.layout ['1', '5'] (-6) = "0.0000015".toList ∧
    Value.numberStyle.layout ['1', '5'] (-7) = "1.5e-7".toList := by decide +kernel

theorem value_eq_digits (d : Decimal) : d.value = natOfDigits d.digits * 10 ^ (d.magnitude + 1 - d.digits.length) := by
  have hlength : 0 < d.digits.length := Nat.length_toDigits_pos
  have hexponent : d.magnitude + 1 - d.digits.length = d.exponent := by
    unfold magnitude
    omega
  rw [hexponent, digits, natOfDigits_toDigits, value]

/-- The magnitude of a decimal is the greatest power of ten that it reaches. -/
theorem magnitude_bounds {d : Decimal} (h : 0 < d.coefficient) :
    10 ^ d.magnitude ≤ d.value ∧ d.value < 10 ^ (d.magnitude + 1) := by
  obtain ⟨hlow, hhigh⟩ := pow_length_toDigits h
  have hstep : (0 : ℚ) < 10 ^ d.exponent := by positivity
  have hlength : 0 < d.digits.length := Nat.length_toDigits_pos
  have hmagnitude : d.magnitude = (d.digits.length - 1) + d.exponent := by
    unfold magnitude
    omega
  rw [hmagnitude, add_right_comm, Int.sub_add_cancel, zpow_add₀ (by norm_num), zpow_add₀ (by norm_num), value]
  exact ⟨mul_le_mul_of_nonneg_right hlow hstep.le, mul_lt_mul_of_pos_right ((lt_add_one _).trans_le hhigh) hstep⟩

end Decimal

/-- The mark of a sign, which only a minus has. -/
def SignMark.of : Float.Model.UnpackedFloat.Sign → SignMark
  | .positive => .none
  | .negative => .minus

namespace Value

theorem numberText_of_parts {x : Float} {s : Float.Model.UnpackedFloat.Sign} {m : Nat} {e : Int} {hm : 0 < m}
    (hparts : Double.parts x = .finite s m e hm) :
    (numberText x).toList = (SignMark.of s).text ++ numberStyle.write m e := by
  rw [numberText, hparts]
  dsimp only
  rw [String.toList_append, String.toList_ofList]
  cases s <;> rfl

theorem value_numeral_of (s : Float.Model.UnpackedFloat.Sign) (t : DecimalText) :
    (t.numeral (SignMark.of s)).value = Decimal.signed s t.value := by
  rw [DecimalText.value_numeral]
  cases s with
  | positive => exact one_mul _
  | negative => exact neg_one_mul _

/-- **The text of a number denotes its digits.** The digits of a finite number that is not zero are the fewest that are
read as it, and their magnitude is the power of ten of the first of them. The text is a minus for a negative number, and
then a tidy text that denotes the decimal with these digits, with an exponent for magnitudes from 21 on and to -7. The
text is also read as that decimal. -/
theorem numberText_denotes {x : Float} {s : Float.Model.UnpackedFloat.Sign} {m : Nat} {e : Int} {hm : 0 < m}
    (hparts : Double.parts x = .finite s m e hm) :
    (Decimal.shortest .up m e).IsShortest s x ∧
    (10 ^ (Decimal.shortest .up m e).magnitude ≤ (Decimal.shortest .up m e).value ∧
      (Decimal.shortest .up m e).value < 10 ^ ((Decimal.shortest .up m e).magnitude + 1)) ∧
    (∃ t : DecimalText, t.Tidy ∧ (numberText x).toList = (SignMark.of s).text ++ t.text ∧
      t.value = (Decimal.shortest .up m e).value ∧
      (t.exponent.isSome = true ↔
        21 ≤ (Decimal.shortest .up m e).magnitude ∨ (Decimal.shortest .up m e).magnitude ≤ -7)) ∧
    ∃ n : Numeral, numeral? (numberText x).toList = some n ∧
      n.value = Decimal.signed s (Decimal.shortest .up m e).value := by
  have hshortest := Decimal.isShortest_shortest .up hparts
  have hlast := hshortest.last
  obtain ⟨t, htidy, htext, hvalue, hexponent⟩ :=
    Decimal.exists_layout (Decimal.significant_digits hlast) (Decimal.shortest .up m e).magnitude
  have hvalue := hvalue.trans (Decimal.value_eq_digits _).symm
  have hwritten : (numberText x).toList = (SignMark.of s).text ++ t.text := by
    rw [numberText_of_parts hparts, htext]
    rfl
  refine ⟨hshortest, Decimal.magnitude_bounds (by omega), ⟨t, htidy, hwritten, hvalue, hexponent⟩, ?_⟩
  refine ⟨_, numeral?_eq_some_iff.mpr ⟨_, t, hwritten, rfl⟩, ?_⟩
  rw [value_numeral_of, hvalue]

/-- The least number there is, which has seventeen digits. -/
theorem numberText_denotes_least :
    Double.parts (.ofBits 0xFFEFFFFFFFFFFFFF) = .finite .negative (2 ^ 53 - 1) 971 (by decide) ∧
    (Decimal.shortest .up (2 ^ 53 - 1) 971).IsShortest .negative (.ofBits 0xFFEFFFFFFFFFFFFF) ∧
    numberText (.ofBits 0xFFEFFFFFFFFFFFFF) = "-1.7976931348623157e+308" ∧
    ∃ t : DecimalText, t.Tidy ∧ t.text = "1.7976931348623157e+308".toList ∧
      t.value = 17976931348623157 * 10 ^ (292 : ℤ) ∧ t.exponent.isSome = true := by
  have hparts : Double.parts (.ofBits 0xFFEFFFFFFFFFFFFF) = .finite .negative (2 ^ 53 - 1) 971 (by decide) := rfl
  have hdecimal : Decimal.shortest .up (2 ^ 53 - 1) 971 = ⟨17976931348623157, 292⟩ := by decide +kernel
  have htext : numberText (.ofBits 0xFFEFFFFFFFFFFFFF) = "-1.7976931348623157e+308" := by decide +kernel
  obtain ⟨hshortest, -, ⟨t, htidy, hwritten, hvalue, hexponent⟩, -⟩ := numberText_denotes hparts
  rw [hdecimal] at hvalue hexponent
  refine ⟨hparts, hshortest, htext, t, htidy, ?_, hvalue, hexponent.mpr (.inl (by decide))⟩
  rw [htext] at hwritten
  exact (List.cons.inj hwritten).2.symm

end Value

end Minifier
