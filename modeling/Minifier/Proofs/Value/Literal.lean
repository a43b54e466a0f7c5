import Mathlib
import Minifier.Proofs.Json.RoundTrip
import Minifier.Value.Numeric

/-!
# Texts that denote numbers

The grammar of numbers in strings, as a type of the texts that it has, each with what it denotes.

* `DecimalText`: digits with a point and an exponent, each of which may be left out, as long as there is a
  digit before the exponent. Its value is a rational number.
* `RadixText`: digits after one of the marks `0x`, `0o` and `0b`.

The readers accept these texts and no others (`numeral?_eq_some_iff`, `natIn?_eq_some_iff`), and the numeral that is
read has the value of the text (`value_numeral`).
-/

namespace Minifier

open Numeral (natOfDigits)

/-! ## Signs -/

/-- The sign of a number, which may be left out. -/
inductive SignMark where
  | none | plus | minus
deriving DecidableEq, Repr

namespace SignMark

/-- How a sign is written. -/
def text : SignMark → List Char
  | .none => []
  | .plus => ['+']
  | .minus => ['-']

/-- The sign is a minus. -/
def isNegative : SignMark → Bool
  | .minus => true
  | _ => false

end SignMark

/-- The text starts with no sign. -/
def startsUnsigned (cs : List Char) : Prop := ∀ c ∈ cs.head?, c ≠ '+' ∧ c ≠ '-'

namespace Value

theorem splitSign_text (sign : SignMark) {cs : List Char} (h : startsUnsigned cs) :
    splitSign (sign.text ++ cs) = (sign.isNegative, cs) := by
  cases sign with
  | plus => rfl
  | minus => rfl
  | none =>
      cases cs with
      | nil => rfl
      | cons c cs =>
          obtain ⟨hplus, hminus⟩ := h c rfl
          rw [SignMark.text, List.nil_append, splitSign]
          · rfl
          · rintro rest heq
            exact hplus (List.cons.inj heq).1
          · rintro rest heq
            exact hminus (List.cons.inj heq).1

/-- The sign that was split off. -/
theorem exists_splitSign (cs : List Char) :
    ∃ sign : SignMark, cs = sign.text ++ (splitSign cs).2 ∧ (splitSign cs).1 = sign.isNegative := by
  unfold splitSign
  split
  · exact ⟨.plus, rfl, rfl⟩
  · exact ⟨.minus, rfl, rfl⟩
  · exact ⟨.none, rfl, rfl⟩

end Value

/-! ## Runs of digits -/

/-- All characters are decimal digits. -/
def AllDigits (ds : List Char) : Prop := ∀ c ∈ ds, c.isDigit = true

instance (ds : List Char) : Decidable (AllDigits ds) := List.decidableBAll _ ds

/-- The text starts with no digit. -/
def startsNoDigit (cs : List Char) : Prop := ∀ c ∈ cs.head?, c.isDigit = false

theorem span_digits {ds rest : List Char} (hds : AllDigits ds) (hrest : startsNoDigit rest) :
    (ds ++ rest).span Char.isDigit = (ds, rest) := by
  have hstop : rest.takeWhile Char.isDigit = [] ∧ rest.dropWhile Char.isDigit = rest := by
    cases rest with
    | nil => exact ⟨rfl, rfl⟩
    | cons c rest => simp [hrest c rfl]
  rw [List.span_eq_takeWhile_dropWhile, List.takeWhile_append_of_pos hds, List.dropWhile_append_of_pos hds,
    hstop.1, hstop.2, List.append_nil]

theorem span_digits_eq (cs : List Char) :
    cs = (cs.span Char.isDigit).1 ++ (cs.span Char.isDigit).2 ∧ AllDigits (cs.span Char.isDigit).1 := by
  rw [List.span_eq_takeWhile_dropWhile]
  exact ⟨List.takeWhile_append_dropWhile.symm, fun c hc => List.mem_takeWhile_imp hc⟩

/-! ## Exponents -/

/-- A power of ten at the end of a number. -/
structure ExponentPart where
  mark : Char
  sign : SignMark
  digits : List Char
  isMark : mark = 'e' ∨ mark = 'E'
  allDigits : AllDigits digits
  digits_ne_nil : digits ≠ []

namespace ExponentPart

/-- How a power of ten is written. -/
def text (p : ExponentPart) : List Char := p.mark :: (p.sign.text ++ p.digits)

/-- The exponent of the power. -/
def power (p : ExponentPart) : Int :=
  if p.sign.isNegative then -natOfDigits p.digits else natOfDigits p.digits

/-- How a power of ten is written that may be left out. -/
def optionText : Option ExponentPart → List Char
  | some p => p.text
  | none => []

end ExponentPart

theorem not_isDigit_of_mark {c : Char} (h : c = 'e' ∨ c = 'E') : c.isDigit = false ∧ c ≠ '.' := by
  rcases h with rfl | rfl <;> decide

theorem unsigned_of_digits {ds : List Char} (h : AllDigits ds) : startsUnsigned ds := by
  intro c hc
  have hdigit := h c (List.mem_of_mem_head? hc)
  constructor <;> rintro rfl <;> exact absurd hdigit (by decide)

namespace Numeral

theorem of_digits? {cs ds rest : List Char} (h : digits? cs = some (ds, rest)) :
    cs = ds ++ rest ∧ AllDigits ds ∧ ds ≠ [] := by
  unfold digits? at h
  split at h
  · cases h
  · rename_i run hrun
    have hspan : cs.span Char.isDigit = (ds, rest) := Option.some.inj h
    obtain ⟨hcs, hds⟩ := span_digits_eq cs
    rw [hspan] at hcs hds
    refine ⟨hcs, hds, ?_⟩
    rintro rfl
    exact hrun rest hspan

/-- After the mark of an exponent comes a sign, which may be left out, and then digits. -/
theorem exponent?_mark {mark : Char} (h : mark = 'e' ∨ mark = 'E') (cs : List Char) :
    exponent? (mark :: cs) = (digits? (Value.splitSign cs).2).map fun run =>
      (some (if (Value.splitSign cs).1 then -(natOfDigits run.1 : Int) else natOfDigits run.1), run.2) := by
  have hmark : (mark == 'e' || mark == 'E') = true := by simpa using h
  unfold Value.splitSign
  split
  · rename_i rest
    rw [exponent?, if_pos hmark]
    cases digits? rest <;> rfl
  · rename_i rest
    rw [exponent?, if_pos hmark]
    cases digits? rest <;> rfl
  · rename_i hplus hminus
    rw [exponent?, if_pos hmark]
    · cases digits? cs <;> rfl
    · exact hplus
    · exact hminus

theorem exponent?_optionText (p : Option ExponentPart) :
    exponent? (ExponentPart.optionText p) = some (p.map ExponentPart.power, []) := by
  cases p with
  | none => rfl
  | some p =>
      rw [ExponentPart.optionText, ExponentPart.text, exponent?_mark p.isMark,
        Value.splitSign_text p.sign (unsigned_of_digits p.allDigits)]
      have hdigits : digits? (p.digits ++ []) = some (p.digits, []) :=
        digits?_append p.allDigits p.digits_ne_nil rfl
      rw [List.append_nil] at hdigits
      rw [hdigits]
      rfl

theorem exists_of_exponent? {cs : List Char} {power : Option Int} (h : exponent? cs = some (power, [])) :
    ∃ p : Option ExponentPart, cs = ExponentPart.optionText p ∧ power = p.map ExponentPart.power := by
  cases cs with
  | nil =>
      cases h
      exact ⟨none, rfl, rfl⟩
  | cons mark cs =>
      by_cases hmark : mark = 'e' ∨ mark = 'E'
      · rw [exponent?_mark hmark] at h
        obtain ⟨⟨ds, rest⟩, hdigits, hrun⟩ := Option.map_eq_some_iff.mp h
        obtain ⟨hpower, rfl⟩ := Prod.mk.inj hrun
        obtain ⟨hcs, hds, hne⟩ := of_digits? hdigits
        obtain ⟨sign, hsign, hnegative⟩ := Value.exists_splitSign cs
        rw [List.append_nil] at hcs
        rw [hcs] at hsign
        rw [hnegative] at hpower
        exact ⟨some ⟨mark, sign, ds, hmark, hds, hne⟩, congrArg (mark :: ·) hsign, hpower.symm⟩
      · have hmark : (mark == 'e' || mark == 'E') = false := by simpa [not_or] using hmark
        unfold exponent? at h
        dsimp only at h
        rw [if_neg (by simp [hmark])] at h
        cases h

end Numeral

/-! ## Decimals -/

/-- A number in decimal notation, without its sign. -/
structure DecimalText where
  whole : List Char
  /-- the digits after the point, if there is one -/
  fraction : Option (List Char)
  exponent : Option ExponentPart
  allDigits_whole : AllDigits whole
  allDigits_fraction : ∀ ds ∈ fraction, AllDigits ds
  someDigit : whole ≠ [] ∨ fraction.getD [] ≠ []

namespace DecimalText

/-- How a fraction is written that may be left out. -/
def fractionText : Option (List Char) → List Char
  | some ds => '.' :: ds
  | none => []

/-- How the number is written. -/
def text (d : DecimalText) : List Char :=
  d.whole ++ (fractionText d.fraction ++ ExponentPart.optionText d.exponent)

/-- The power of ten that the digits are multiplied by. -/
def power (d : DecimalText) : Int := (d.exponent.map ExponentPart.power).getD 0

/-- The number that the text denotes: the digits before the point, and as a fraction those after it, times the
power of ten. -/
def value (d : DecimalText) : ℚ :=
  (natOfDigits d.whole + natOfDigits (d.fraction.getD []) / 10 ^ (d.fraction.getD []).length) * 10 ^ d.power

/-- The numeral of the text. -/
def numeral (sign : SignMark) (d : DecimalText) : Numeral :=
  .ofDigits sign.isNegative d.whole (d.fraction.getD []) (d.exponent.map ExponentPart.power)

end DecimalText

/-- The number that a numeral denotes. -/
def Numeral.value (n : Numeral) : ℚ := (if n.negative then -1 else 1) * n.digits * 10 ^ n.scale

theorem Numeral.natOfDigits_append (ds es : List Char) :
    natOfDigits (ds ++ es) = natOfDigits ds * 10 ^ es.length + natOfDigits es := by
  have hfold : ∀ (es : List Char) (n : Nat),
      es.foldl (fun n c => 10 * n + digitValue c) n = n * 10 ^ es.length + natOfDigits es := by
    intro es
    induction es with
    | nil => simp [natOfDigits]
    | cons c es ih =>
        intro n
        rw [natOfDigits, List.foldl_cons, List.foldl_cons, ih, ih (10 * 0 + digitValue c), List.length_cons, pow_succ]
        ring
  rw [natOfDigits, List.foldl_append, hfold es]
  rfl

/-- The number of a text by all of its digits, of which those after the point lower the power of ten. -/
theorem DecimalText.value_eq (d : DecimalText) :
    d.value = natOfDigits (d.whole ++ d.fraction.getD []) * 10 ^ (d.power - (d.fraction.getD []).length) := by
  rw [value, Numeral.natOfDigits_append, zpow_sub₀ (by norm_num), zpow_natCast]
  push_cast
  field_simp

/-- A numeral denotes what its text does. -/
theorem DecimalText.value_numeral (sign : SignMark) (d : DecimalText) :
    (d.numeral sign).value = (if sign.isNegative then -1 else 1) * d.value := by
  rw [value_eq, ← mul_assoc]
  rfl

theorem startsNoDigit_optionText (p : Option ExponentPart) : startsNoDigit (ExponentPart.optionText p) := by
  cases p with
  | none => simp [startsNoDigit, ExponentPart.optionText]
  | some p =>
      rintro c hc
      cases hc
      exact (not_isDigit_of_mark p.isMark).1

namespace Value

/-- The digits after a point, and what follows them; without a point there are none. -/
def afterPoint : List Char → List Char × List Char
  | '.' :: rest => rest.span Char.isDigit
  | rest => ([], rest)

theorem mantissa?_eq (cs : List Char) :
    mantissa? cs =
      let run := cs.span Char.isDigit
      let fraction := afterPoint run.2
      if run.1.isEmpty && fraction.1.isEmpty then none else some (run.1, fraction.1, fraction.2) := rfl

theorem afterPoint_text {fraction : Option (List Char)} (h : ∀ ds ∈ fraction, AllDigits ds)
    (p : Option ExponentPart) :
    afterPoint (DecimalText.fractionText fraction ++ ExponentPart.optionText p)
      = (fraction.getD [], ExponentPart.optionText p) := by
  cases fraction with
  | some ds => exact span_digits (h ds rfl) (startsNoDigit_optionText p)
  | none =>
      cases p with
      | none => rfl
      | some p =>
          rw [DecimalText.fractionText, List.nil_append, ExponentPart.optionText, ExponentPart.text, afterPoint]
          · rfl
          · rintro rest heq
            exact (not_isDigit_of_mark p.isMark).2 (List.cons.inj heq).1

theorem exists_afterPoint (cs : List Char) :
    ∃ fraction : Option (List Char), cs = DecimalText.fractionText fraction ++ (afterPoint cs).2 ∧
      (afterPoint cs).1 = fraction.getD [] ∧ ∀ ds ∈ fraction, AllDigits ds := by
  unfold afterPoint
  split
  · rename_i rest
    obtain ⟨hrest, hdigits⟩ := span_digits_eq rest
    refine ⟨some _, congrArg ('.' :: ·) hrest, rfl, ?_⟩
    rintro ds hds
    cases hds
    exact hdigits
  · exact ⟨none, rfl, rfl, by simp⟩

theorem startsNoDigit_fractionText (fraction : Option (List Char)) (p : Option ExponentPart) :
    startsNoDigit (DecimalText.fractionText fraction ++ ExponentPart.optionText p) := by
  cases fraction with
  | some ds =>
      rintro c hc
      cases hc
      rfl
  | none => exact startsNoDigit_optionText p

theorem mantissa?_text (d : DecimalText) :
    mantissa? d.text = some (d.whole, d.fraction.getD [], ExponentPart.optionText d.exponent) := by
  have hdigits : ¬ (d.whole.isEmpty && (d.fraction.getD []).isEmpty) = true := by
    rw [Bool.and_eq_true, List.isEmpty_iff, List.isEmpty_iff]
    rintro ⟨hwhole, hfraction⟩
    exact d.someDigit.elim (· hwhole) (· hfraction)
  rw [mantissa?_eq, DecimalText.text,
    span_digits d.allDigits_whole (startsNoDigit_fractionText d.fraction d.exponent)]
  dsimp only
  rw [afterPoint_text d.allDigits_fraction, if_neg hdigits]

/-- A mantissa and the exponent after it are a number. -/
theorem exists_of_mantissa? {cs whole fraction rest : List Char} {power : Option Int}
    (hmantissa : mantissa? cs = some (whole, fraction, rest))
    (hexponent : Numeral.exponent? rest = some (power, [])) :
    ∃ d : DecimalText, cs = d.text ∧ ∀ sign : SignMark,
      Numeral.ofDigits sign.isNegative whole fraction power = d.numeral sign := by
  rw [mantissa?_eq] at hmantissa
  dsimp only at hmantissa
  split at hmantissa
  · cases hmantissa
  · rename_i hdigits
    obtain ⟨hcs, hwhole⟩ := span_digits_eq cs
    obtain ⟨point, hpoint, hfraction, hpointDigits⟩ := exists_afterPoint (cs.span Char.isDigit).2
    cases hmantissa
    obtain ⟨p, hp, rfl⟩ := Numeral.exists_of_exponent? hexponent
    rw [hfraction, Bool.and_eq_true, List.isEmpty_iff, List.isEmpty_iff, not_and_or] at hdigits
    rw [hp] at hpoint
    rw [hpoint] at hcs
    refine ⟨⟨_, point, p, hwhole, hpointDigits, hdigits⟩, hcs, fun sign => ?_⟩
    rw [hfraction]
    rfl

theorem startsUnsigned_text (d : DecimalText) : startsUnsigned d.text := by
  unfold DecimalText.text
  cases hwhole : d.whole with
  | cons c cs =>
      rw [List.cons_append]
      have hunsigned : startsUnsigned [c] := unsigned_of_digits fun b hb => d.allDigits_whole b (by simp_all)
      exact hunsigned
  | nil =>
      -- Without a digit before it there is a point.
      have hsome := d.someDigit.resolve_left (by simp [hwhole])
      cases hfraction : d.fraction with
      | none => simp [hfraction] at hsome
      | some ds => simp [startsUnsigned, DecimalText.fractionText]

/-- **A text is read as a decimal exactly if it is one**, with or without a sign. -/
theorem numeral?_eq_some_iff {cs : List Char} {n : Numeral} :
    numeral? cs = some n ↔ ∃ (sign : SignMark) (d : DecimalText), cs = sign.text ++ d.text ∧ n = d.numeral sign := by
  constructor
  · intro h
    obtain ⟨sign, hsign, hnegative⟩ := exists_splitSign cs
    unfold numeral? at h
    dsimp only at h
    split at h
    · cases h
    · rename_i whole fraction rest hmantissa
      split at h
      · rename_i power hexponent
        obtain ⟨d, hd, hnumeral⟩ := exists_of_mantissa? hmantissa hexponent
        refine ⟨sign, d, by rw [← hd]; exact hsign, ?_⟩
        rw [← hnumeral, ← hnegative]
        exact (Option.some.inj h).symm
      · cases h
  · rintro ⟨sign, d, rfl, rfl⟩
    unfold numeral?
    rw [splitSign_text sign (startsUnsigned_text d)]
    dsimp only
    rw [mantissa?_text]
    dsimp only
    rw [Numeral.exponent?_optionText]
    rfl

end Value

/-! ## Marked radixes -/

/-- The radixes that have a mark. -/
inductive Radix where
  | hexadecimal | octal | binary
deriving DecidableEq, Repr

namespace Radix

/-- The number of digits of the radix. -/
def base : Radix → Nat
  | .hexadecimal => 16
  | .octal => 8
  | .binary => 2

instance (r : Radix) : NeZero r.base := ⟨by cases r <;> decide⟩

/-- The letter of the mark. -/
def letter : Radix → Char
  | .hexadecimal => 'x'
  | .octal => 'o'
  | .binary => 'b'

/-- The letter of the mark in either case. -/
def mark (r : Radix) (upper : Bool) : Char := if upper then r.letter.toUpper else r.letter

/-- A digit in either case. -/
def digitChar (r : Radix) (d : Fin r.base × Bool) : Char :=
  if d.2 then (Nat.digitChar d.1).toUpper else Nat.digitChar d.1

/-- The number that digits denote. -/
def number (r : Radix) (ds : List (Fin r.base × Bool)) : Nat :=
  Nat.ofDigits r.base (ds.map fun d => d.1.val).reverse

theorem number_cons (r : Radix) (d : Fin r.base × Bool) (ds : List (Fin r.base × Bool)) :
    r.number (d :: ds) = d.1.val * r.base ^ ds.length + r.number ds := by
  rw [number, number, List.map_cons, List.reverse_cons, Nat.ofDigits_append, Nat.ofDigits_singleton,
    List.length_reverse, List.length_map]
  ring

theorem digitIn?_digitChar (r : Radix) (d : Fin r.base × Bool) :
    Value.digitIn? r.base (r.digitChar d) = some d.1.val := by
  obtain ⟨v, upper⟩ := d
  cases r with
  | hexadecimal => revert v upper; decide
  | octal => revert v upper; decide
  | binary => revert v upper; decide

theorem toNat_of_isDigit {c : Char} (h : c.isDigit = true) : 48 ≤ c.toNat ∧ c.toNat < 58 := by
  simp only [Char.isDigit, Bool.and_eq_true, decide_eq_true_eq, UInt32.le_iff_toNat_le] at h
  exact ⟨h.1, Nat.lt_succ_of_le h.2⟩

/-- What is read as a digit is written as one. -/
theorem exists_of_digitIn? {r : Radix} {c : Char} {v : Nat} (h : Value.digitIn? r.base c = some v) :
    ∃ d : Fin r.base × Bool, c = r.digitChar d ∧ d.1.val = v := by
  have hdecimal : ∀ v < 10, Char.ofNat (48 + v) = Nat.digitChar v := by decide
  have hlower : ∀ v < 6, Char.ofNat (97 + v) = Nat.digitChar (v + 10) := by decide
  have hupper : ∀ v < 6, Char.ofNat (65 + v) = (Nat.digitChar (v + 10)).toUpper := by decide
  have hchar : ∀ {first : Nat}, first ≤ c.toNat → c = Char.ofNat (first + (c.toNat - first)) := by
    intro first hfirst
    rw [Nat.add_sub_cancel' hfirst, Char.ofNat_toNat]
  unfold Value.digitIn? at h
  dsimp only at h
  split at h
  next hdigit =>
    obtain ⟨hlow, hhigh⟩ := toNat_of_isDigit hdigit
    split at h
    next hlt =>
      cases h
      exact ⟨(⟨_, hlt⟩, false), (hchar hlow).trans (hdecimal _ (by omega)), rfl⟩
    next => cases h
  next =>
  split at h
  next hletter =>
    have hlow : 97 ≤ c.toNat := hletter.1
    have hhigh : c.toNat ≤ 102 := hletter.2
    split at h
    next hlt =>
      cases h
      exact ⟨(⟨_, hlt⟩, false), (hchar hlow).trans (hlower _ (by omega)), rfl⟩
    next => cases h
  next =>
  split at h
  next hletter =>
    have hlow : 65 ≤ c.toNat := hletter.1
    have hhigh : c.toNat ≤ 70 := hletter.2
    split at h
    next hlt =>
      cases h
      exact ⟨(⟨_, hlt⟩, true), (hchar hlow).trans (hupper _ (by omega)), rfl⟩
    next => cases h
  next => simp at h

end Radix

namespace Value

/-- **Digits of a radix, and only they, are read as the number that they denote.** -/
theorem natIn?_eq_some_iff {r : Radix} {n value : Nat} {cs : List Char} :
    natIn? r.base n cs = some value ↔ ∃ ds : List (Fin r.base × Bool),
      cs = ds.map r.digitChar ∧ value = n * r.base ^ ds.length + r.number ds := by
  induction cs generalizing n with
  | nil =>
      constructor
      · rintro h
        exact ⟨[], rfl, by simpa [Radix.number] using (Option.some.inj h).symm⟩
      · rintro ⟨ds, hds, hvalue⟩
        rw [List.map_eq_nil_iff.mp hds.symm] at hvalue
        rw [hvalue]
        simp [natIn?, Radix.number]
  | cons c cs ih =>
      rw [natIn?, Option.bind_eq_some_iff]
      constructor
      · rintro ⟨v, hdigit, hrest⟩
        obtain ⟨d, rfl, rfl⟩ := Radix.exists_of_digitIn? hdigit
        obtain ⟨ds, rfl, hvalue⟩ := ih.mp hrest
        refine ⟨d :: ds, rfl, ?_⟩
        rw [hvalue, Radix.number_cons, List.length_cons]
        ring
      · rintro ⟨ds, hds, hvalue⟩
        obtain ⟨d, ds, rfl, rfl, rfl⟩ := List.map_eq_cons_iff.mp hds.symm
        refine ⟨d.1.val, Radix.digitIn?_digitChar r d, ih.mpr ⟨ds, rfl, ?_⟩⟩
        rw [hvalue, Radix.number_cons, List.length_cons]
        ring

theorem radixMark?_eq_some_iff {cs rest : List Char} {base : Nat} :
    radixMark? cs = some (base, rest) ↔
      ∃ (r : Radix) (upper : Bool), base = r.base ∧ cs = '0' :: r.mark upper :: rest := by
  constructor
  · intro h
    unfold radixMark? at h
    split at h
    next mark rest' =>
      have hmark : ∀ r : Radix, (mark == r.letter || mark == r.letter.toUpper) = true →
          ∃ upper, mark = r.mark upper := by
        intro r hr
        rcases Bool.or_eq_true_iff.mp hr with hr | hr
        · exact ⟨false, beq_iff_eq.mp hr⟩
        · exact ⟨true, beq_iff_eq.mp hr⟩
      split at h
      next hx =>
        obtain ⟨upper, rfl⟩ := hmark .hexadecimal hx
        cases h
        exact ⟨.hexadecimal, upper, rfl, rfl⟩
      next =>
      split at h
      next ho =>
        obtain ⟨upper, rfl⟩ := hmark .octal ho
        cases h
        exact ⟨.octal, upper, rfl, rfl⟩
      next =>
      split at h
      next hb =>
        obtain ⟨upper, rfl⟩ := hmark .binary hb
        cases h
        exact ⟨.binary, upper, rfl, rfl⟩
      next => cases h
    next => cases h
  · rintro ⟨r, upper, rfl, rfl⟩
    cases r <;> cases upper <;> rfl

end Value

/-- A number after the mark of its radix. -/
structure RadixText where
  radix : Radix
  /-- the letter of the mark is a capital -/
  upper : Bool
  digits : List (Fin radix.base × Bool)
  digits_ne_nil : digits ≠ []

namespace RadixText

/-- The number that the text denotes. -/
def number (t : RadixText) : Nat := t.radix.number t.digits

/-- The mark of the radix, and then the digits. -/
def text (t : RadixText) : List Char := '0' :: t.radix.mark t.upper :: t.digits.map t.radix.digitChar

/-- The text with a plus between the mark and the digits. -/
def signedText (t : RadixText) : List Char :=
  '0' :: t.radix.mark t.upper :: '+' :: t.digits.map t.radix.digitChar

end RadixText

namespace Value

/-- A text without a leading plus. -/
def dropPlus : List Char → List Char
  | '+' :: rest => rest
  | rest => rest

theorem wordIn_eq (radix : Nat) (cs : List Char) :
    wordIn radix cs = ((natIn? radix 0 (dropPlus cs)).filter fun n => dropPlus cs ≠ [] ∧ n < 2 ^ 64).elim
      Double.nan Float.ofNat := by
  unfold wordIn
  dsimp only
  split
  next hnil =>
    change dropPlus cs = [] at hnil
    simp [hnil, natIn?, Option.filter]
  next hnone _ =>
    change natIn? radix 0 (dropPlus cs) = none at hnone
    rw [hnone]
    rfl
  next n hsome hne =>
    change natIn? radix 0 (dropPlus cs) = some n at hsome
    have hne : dropPlus cs ≠ [] := hne
    rw [hsome]
    split
    next hlt => simp [Option.filter, hlt, hne]
    next hle => simp [Option.filter, hle]

/-- No digit is a plus. -/
theorem dropPlus_map_digitChar (r : Radix) (ds : List (Fin r.base × Bool)) :
    dropPlus (ds.map r.digitChar) = ds.map r.digitChar := by
  cases ds with
  | nil => rfl
  | cons d ds =>
      have hdigit := Radix.digitIn?_digitChar r d
      rw [List.map_cons, dropPlus]
      rintro rest heq
      rw [(List.cons.inj heq).1] at hdigit
      cases r <;> cases hdigit

/-- **After a mark, digits that denote less than `2 ^ 64` are read, with or without a plus.** -/
theorem wordIn_eq_iff {r : Radix} {cs : List Char} {x : Float} (hx : x.isNaN = false) :
    wordIn r.base cs = x ↔ ∃ ds : List (Fin r.base × Bool), ds ≠ [] ∧
      (cs = ds.map r.digitChar ∨ cs = '+' :: ds.map r.digitChar) ∧ r.number ds < 2 ^ 64 ∧
        x = Float.ofNat (r.number ds) := by
  have hnan : Double.nan ≠ x := by
    rintro rfl
    cases hx
  rw [wordIn_eq]
  constructor
  · intro h
    cases hword : (natIn? r.base 0 (dropPlus cs)).filter fun n => dropPlus cs ≠ [] ∧ n < 2 ^ 64 with
    | none => rw [hword] at h; exact absurd h hnan
    | some n =>
        rw [hword] at h
        rw [Option.filter_eq_some_iff, decide_eq_true_eq] at hword
        obtain ⟨hread, hne, hlt⟩ := hword
        obtain ⟨ds, hds, hvalue⟩ := natIn?_eq_some_iff.mp hread
        rw [Nat.zero_mul, Nat.zero_add] at hvalue
        subst hvalue
        refine ⟨ds, ?_, ?_, hlt, h.symm⟩
        · rintro rfl
          exact hne hds
        · rw [← hds]
          unfold dropPlus
          split
          · exact .inr rfl
          · exact .inl rfl
  · rintro ⟨ds, hne, hcs, hlt, rfl⟩
    have hdrop : dropPlus cs = ds.map r.digitChar := by
      rcases hcs with rfl | rfl
      · exact dropPlus_map_digitChar r ds
      · rfl
    have hread : natIn? r.base 0 (ds.map r.digitChar) = some (r.number ds) :=
      natIn?_eq_some_iff.mpr ⟨ds, rfl, by simp⟩
    have hfits : decide (ds.map r.digitChar ≠ [] ∧ r.number ds < 2 ^ 64) = true :=
      decide_eq_true ⟨by simpa using hne, hlt⟩
    rw [hdrop, hread, Option.filter, if_pos hfits]
    rfl

end Value

end Minifier
