import Minifier.Proofs.Value.Literal
import Minifier.Proofs.Value.Rounding

/-!
# The numbers of texts and of composite values

A text is a number in the language if, without the white space around it, it *denotes* one (`Denotes`): it is
empty, an infinity, a decimal, or the digits of a radix after its mark. The texts that are *read* (`Reads`) are not
quite the same.

* `numberOfText_eq_iff`: what a text is read as, for every number but NaN.
* `toNumber_string_agrees_iff`: reading and denoting agree on a text just if none of four deviations occurs in it
  (`Deviates`). Two of them are on what is stripped off, where blanks and white space differ by a character each
  way; the other two are on digits after a mark, which are read into a word of 64 bits, with a plus or without.
* `toNumber_composite_iff`: the number of an array or object is the number of its text, but for an array that has
  one item and that `undefined` or `null`.

All of this rests on one observation: what is left of a text that is read has only characters of a narrow range
(`InNumberRange`), in which there is neither a blank nor white space nor a comma.
-/

namespace Minifier

/-! ## Blanks around a number -/

namespace Text

/-- A text without the characters of a class at either end. -/
def stripBy (p : Char → Bool) (cs : List Char) : List Char := (cs.dropWhile p).rdropWhile p

theorem trim_eq_stripBy (cs : List Char) : trim cs = stripBy isBlank cs := rfl

/-- The white space and the line ends of programs. -/
def isSpace (c : Char) : Bool :=
  [0x09, 0x0A, 0x0B, 0x0C, 0x0D, 0x20, 0xA0, 0x1680, 0x2000, 0x2001, 0x2002, 0x2003, 0x2004, 0x2005, 0x2006, 0x2007,
    0x2008, 0x2009, 0x200A, 0x2028, 0x2029, 0x202F, 0x205F, 0x3000, 0xFEFF].contains c.toNat

/-- The character U+0085, which is blank but no white space of programs. -/
def nextLine : Char := Char.ofNat 0x85

/-- The character U+FEFF, which is white space of programs but not blank. -/
def byteOrderMark : Char := Char.ofNat 0xFEFF

theorem isSpace_of_isBlank {c : Char} (h : isBlank c = true) (hne : c ≠ nextLine) : isSpace c = true := by
  have hcode : c.toNat ≠ 0x85 := fun hcode => hne (by rw [nextLine, ← hcode, Char.ofNat_toNat])
  simp [isBlank] at h
  simp [isSpace]
  omega

theorem isBlank_of_isSpace {c : Char} (h : isSpace c = true) (hne : c ≠ byteOrderMark) : isBlank c = true := by
  have hcode : c.toNat ≠ 0xFEFF := fun hcode => hne (by rw [byteOrderMark, ← hcode, Char.ofNat_toNat])
  simp [isSpace] at h
  simp [isBlank]
  omega

theorem exists_stripBy (p : Char → Bool) (cs : List Char) :
    ∃ before after, cs = before ++ stripBy p cs ++ after ∧
      (∀ c ∈ before, p c = true) ∧ ∀ c ∈ after, p c = true := by
  refine ⟨cs.takeWhile p, (cs.dropWhile p).rtakeWhile p, ?_, fun c => List.mem_takeWhile_imp,
    fun c => List.mem_rtakeWhile_imp⟩
  rw [stripBy, List.append_assoc, List.rdropWhile_append_rtakeWhile, List.takeWhile_append_dropWhile]

/-- Nothing is dropped at the front of a text that has no character of the class. -/
theorem dropWhile_of_none {p : Char → Bool} {cs : List Char} (h : ∀ c ∈ cs, p c = false) : cs.dropWhile p = cs := by
  cases cs with
  | nil => rfl
  | cons c cs => exact List.dropWhile_cons_of_neg (by simp [h c])

theorem stripBy_append {p : Char → Bool} {before body after : List Char} (hbefore : ∀ c ∈ before, p c = true)
    (hbody : ∀ c ∈ body, p c = false) (hafter : ∀ c ∈ after, p c = true) :
    stripBy p (before ++ body ++ after) = body := by
  have hback : (body ++ after).rdropWhile p = body := by
    rw [List.rdropWhile, List.reverse_append, List.dropWhile_append_of_pos (by simpa using hafter),
      dropWhile_of_none (by simpa using hbody), List.reverse_reverse]
  rw [stripBy, List.append_assoc, List.dropWhile_append_of_pos hbefore]
  cases body with
  | nil => rw [List.nil_append, List.dropWhile_eq_nil_iff.mpr hafter, List.rdropWhile_nil]
  | cons c cs =>
      rw [List.cons_append, List.dropWhile_cons_of_neg (by simp [hbody c]), ← List.cons_append]
      exact hback

/-- A character that is not of the class is not stripped off. -/
theorem mem_stripBy {p : Char → Bool} {cs : List Char} {c : Char} (hc : c ∈ cs) (hp : p c = false) :
    c ∈ stripBy p cs := by
  obtain ⟨before, after, hcs, hbefore, hafter⟩ := exists_stripBy p cs
  rw [hcs, List.mem_append, List.mem_append] at hc
  rcases hc with (hc | hc) | hc
  · exact absurd (hbefore c hc) (by simp [hp])
  · exact hc
  · exact absurd (hafter c hc) (by simp [hp])

/-- Two ways to strip a text agree if what the one strips off is stripped off by the other, which takes nothing
of what is left. -/
theorem stripBy_eq_stripBy {p q : Char → Bool} {cs : List Char} (hsame : ∀ c ∈ cs, p c = true → q c = true)
    (hleft : ∀ c ∈ stripBy p cs, q c = false) : stripBy q cs = stripBy p cs := by
  obtain ⟨before, after, hcs, hbefore, hafter⟩ := exists_stripBy p cs
  conv_lhs => rw [hcs]
  apply stripBy_append _ hleft
  · intro c hc
    exact hsame c (by rw [hcs]; simp [hc]) (hafter c hc)
  · intro c hc
    exact hsame c (by rw [hcs]; simp [hc]) (hbefore c hc)

end Text

/-! ## What texts denote -/

/-- The text, with nothing around it, denotes the number. -/
inductive Denotes : List Char → Float → Prop where
  | empty : Denotes [] 0.0
  | infinity (sign : SignMark) :
      Denotes (sign.text ++ "Infinity".toList) (if sign.isNegative then -Double.infinity else Double.infinity)
  | decimal (sign : SignMark) (d : DecimalText) : Denotes (sign.text ++ d.text) (d.numeral sign).toFloat
  | radix (t : RadixText) : Denotes t.text (Float.ofNat t.number)

theorem Denotes.isNaN {cs : List Char} {x : Float} (h : Denotes cs x) : x.isNaN = false := by
  cases h with
  | empty => rfl
  | infinity sign => cases sign <;> rfl
  | decimal sign d => exact Numeral.isNaN_toFloat _
  | radix t => exact Double.isNaN_ofScientific _ _ _

/-- The character lies in the range of those that texts of numbers have: neither a blank nor a comma does. -/
def InNumberRange (c : Char) : Prop := 0x2A < c.toNat ∧ c.toNat < 0x7B ∧ c.toNat ≠ 0x2C

instance (c : Char) : Decidable (InNumberRange c) :=
  inferInstanceAs (Decidable (0x2A < c.toNat ∧ c.toNat < 0x7B ∧ c.toNat ≠ 0x2C))

namespace InNumberRange

theorem isBlank {c : Char} (h : InNumberRange c) : Text.isBlank c = false := by
  obtain ⟨hlow, hhigh, -⟩ := h
  simp [Text.isBlank]
  omega

theorem isSpace {c : Char} (h : InNumberRange c) : Text.isSpace c = false := by
  obtain ⟨hlow, hhigh, -⟩ := h
  simp [Text.isSpace]
  omega

theorem of_isDigit {c : Char} (h : c.isDigit = true) : InNumberRange c := by
  obtain ⟨hlow, hhigh⟩ := Radix.toNat_of_isDigit h
  exact ⟨by omega, by omega, by omega⟩

theorem of_sign {sign : SignMark} : ∀ c ∈ sign.text, InNumberRange c := by
  cases sign <;> simp [SignMark.text, InNumberRange]

theorem of_exponent (p : Option ExponentPart) : ∀ c ∈ ExponentPart.optionText p, InNumberRange c := by
  cases p with
  | none => simp [ExponentPart.optionText]
  | some p =>
      intro c hc
      simp only [ExponentPart.optionText, ExponentPart.text, List.mem_cons, List.mem_append] at hc
      rcases hc with rfl | hc | hc
      · rcases p.isMark with h | h <;> rw [h] <;> decide
      · exact of_sign c hc
      · exact of_isDigit (p.allDigits c hc)

theorem of_decimal (d : DecimalText) : ∀ c ∈ d.text, InNumberRange c := by
  intro c hc
  simp only [DecimalText.text, List.mem_append] at hc
  rcases hc with hc | hc | hc
  · exact of_isDigit (d.allDigits_whole c hc)
  · cases hfraction : d.fraction with
    | none => simp [hfraction, DecimalText.fractionText] at hc
    | some ds =>
        rw [hfraction, DecimalText.fractionText, List.mem_cons] at hc
        rcases hc with rfl | hc
        · decide
        · exact of_isDigit (d.allDigits_fraction ds hfraction c hc)
  · exact of_exponent d.exponent c hc

theorem of_digitChar (r : Radix) (d : Fin r.base × Bool) : InNumberRange (r.digitChar d) := by
  obtain ⟨v, upper⟩ := d
  cases r with
  | hexadecimal => revert v upper; decide
  | octal => revert v upper; decide
  | binary => revert v upper; decide

theorem of_mark (r : Radix) (upper : Bool) : InNumberRange (r.mark upper) := by
  cases r <;> cases upper <;> decide

theorem of_signedText (t : RadixText) : ∀ c ∈ t.signedText, InNumberRange c := by
  intro c hc
  simp only [RadixText.signedText, List.mem_cons, List.mem_map] at hc
  rcases hc with rfl | rfl | rfl | ⟨d, -, rfl⟩
  · decide
  · exact of_mark _ _
  · decide
  · exact of_digitChar _ _

theorem of_denotes {cs : List Char} {x : Float} (h : Denotes cs x) : ∀ c ∈ cs, InNumberRange c := by
  cases h with
  | empty => simp
  | infinity sign =>
      have hword : ∀ c ∈ "Infinity".toList, InNumberRange c := by simp [InNumberRange]
      intro c hc
      rcases List.mem_append.mp hc with hc | hc
      · exact of_sign c hc
      · exact hword c hc
  | decimal sign d =>
      intro c hc
      rcases List.mem_append.mp hc with hc | hc
      · exact of_sign c hc
      · exact of_decimal d c hc
  | radix t =>
      intro c hc
      refine of_signedText t c ?_
      simp only [RadixText.text, RadixText.signedText, List.mem_cons] at hc ⊢
      tauto

end InNumberRange

/-! ## How a text is read -/

theorem radixMark?_text (t : RadixText) :
    Value.radixMark? t.text = some (t.radix.base, t.digits.map t.radix.digitChar) :=
  Value.radixMark?_eq_some_iff.mpr ⟨t.radix, t.upper, rfl, rfl⟩

theorem radixMark?_signedText (t : RadixText) :
    Value.radixMark? t.signedText = some (t.radix.base, '+' :: t.digits.map t.radix.digitChar) :=
  Value.radixMark?_eq_some_iff.mpr ⟨t.radix, t.upper, rfl, rfl⟩

/-- A text with a mark is no decimal: after its first digit comes a letter that is no exponent's. -/
theorem numeral?_marked (r : Radix) (upper : Bool) (rest : List Char) :
    Value.numeral? ('0' :: r.mark upper :: rest) = none := by
  cases r <;> cases upper <;> rfl

theorem radixMark?_decimal (sign : SignMark) (d : DecimalText) : Value.radixMark? (sign.text ++ d.text) = none := by
  cases hmark : Value.radixMark? (sign.text ++ d.text) with
  | none => rfl
  | some found =>
      obtain ⟨r, upper, -, htext⟩ := Value.radixMark?_eq_some_iff.mp hmark
      have hread := Value.numeral?_eq_some_iff.mpr ⟨sign, d, rfl, rfl⟩
      rw [htext, numeral?_marked] at hread
      cases hread

theorem radixMark?_infinity (sign : SignMark) : Value.radixMark? (sign.text ++ "Infinity".toList) = none := by
  cases sign <;> rfl

/-- What starts with a mark denotes a number only as digits after it. -/
theorem Denotes.exists_radixText {cs : List Char} {x : Float} {found : Nat × List Char} (h : Denotes cs x)
    (hmark : Value.radixMark? cs = some found) : ∃ t : RadixText, cs = t.text ∧ x = Float.ofNat t.number := by
  cases h with
  | empty => cases hmark
  | infinity sign =>
      rw [radixMark?_infinity] at hmark
      cases hmark
  | decimal sign d =>
      rw [radixMark?_decimal] at hmark
      cases hmark
  | radix t => exact ⟨t, rfl, rfl⟩

namespace Value

theorem splitSign_infinity_iff {cs : List Char} :
    (splitSign cs).2 = "Infinity".toList ↔ ∃ sign : SignMark, cs = sign.text ++ "Infinity".toList := by
  constructor
  · intro h
    obtain ⟨sign, hsign, -⟩ := exists_splitSign cs
    exact ⟨sign, by rw [hsign, h]⟩
  · rintro ⟨sign, rfl⟩
    cases sign <;> rfl

/-- What a text without a mark is read as. -/
theorem numberOfText_unmarked {s : String} (hne : Text.trim s.toList ≠ [])
    (hmark : radixMark? (Text.trim s.toList) = none) :
    numberOfText s =
      if (splitSign (Text.trim s.toList)).2 = "Infinity".toList then
        if (splitSign (Text.trim s.toList)).1 then -Double.infinity else Double.infinity
      else (numeral? (Text.trim s.toList)).elim Double.nan Numeral.toFloat := by
  unfold numberOfText
  dsimp only
  split
  next hnil => exact absurd hnil hne
  next hsome _ =>
    rw [hmark] at hsome
    cases hsome
  next => cases numeral? (Text.trim s.toList) <;> rfl

theorem numberOfText_marked {s : String} {base : Nat} {rest : List Char}
    (hmark : radixMark? (Text.trim s.toList) = some (base, rest)) : numberOfText s = wordIn base rest := by
  unfold numberOfText
  dsimp only
  split
  next hnil =>
    rw [hnil] at hmark
    cases hmark
  next hsome _ =>
    rw [hmark] at hsome
    cases hsome
    rfl
  next hnone _ =>
    rw [hmark] at hnone
    cases hnone

theorem numberOfText_blank {s : String} (h : Text.trim s.toList = []) : numberOfText s = 0.0 := by
  unfold numberOfText
  dsimp only
  rw [h]

end Value

/-- The text, with nothing around it, is read as the number. That is the number which it denotes, except that
digits after a mark have to denote less than `2 ^ 64`, and that a plus may stand between the two. -/
inductive Reads : List Char → Float → Prop where
  | denoted {cs : List Char} {x : Float} (h : Denotes cs x)
      (hword : ∀ t : RadixText, cs = t.text → t.number < 2 ^ 64) : Reads cs x
  | signed (t : RadixText) (hword : t.number < 2 ^ 64) : Reads t.signedText (Float.ofNat t.number)

theorem Reads.isNaN {cs : List Char} {x : Float} (h : Reads cs x) : x.isNaN = false := by
  cases h with
  | denoted h hword => exact h.isNaN
  | signed t hword => exact Double.isNaN_ofScientific _ _ _

theorem InNumberRange.of_reads {cs : List Char} {x : Float} (h : Reads cs x) : ∀ c ∈ cs, InNumberRange c := by
  cases h with
  | denoted h hword => exact of_denotes h
  | signed t hword => exact of_signedText t

theorem RadixText.natIn?_digits (t : RadixText) :
    Value.natIn? t.radix.base 0 (t.digits.map t.radix.digitChar) = some t.number :=
  Value.natIn?_eq_some_iff.mpr ⟨t.digits, rfl, by simp [number]⟩

/-- A text with a mark denotes one number. -/
theorem RadixText.number_eq_of_text {t t' : RadixText} (h : t.text = t'.text) : t.number = t'.number := by
  have hmark := radixMark?_text t
  rw [h, radixMark?_text, Option.some.injEq, Prod.mk.injEq] at hmark
  have hread := t.natIn?_digits
  rw [← hmark.2, ← hmark.1, t'.natIn?_digits] at hread
  exact (Option.some.inj hread).symm

namespace Value

/-- What follows the mark of a text is read as a number just if the whole text is. -/
theorem wordIn_eq_iff_reads {r : Radix} {upper : Bool} {rest : List Char} {x : Float} (hx : x.isNaN = false) :
    wordIn r.base rest = x ↔ Reads ('0' :: r.mark upper :: rest) x := by
  constructor
  · rw [wordIn_eq_iff hx]
    rintro ⟨ds, hne, rfl | rfl, hlt, rfl⟩
    · have hword : ∀ t : RadixText, RadixText.text ⟨r, upper, ds, hne⟩ = t.text → t.number < 2 ^ 64 := by
        intro t ht
        rw [← RadixText.number_eq_of_text ht]
        exact hlt
      exact .denoted (.radix ⟨r, upper, ds, hne⟩) hword
    · exact .signed ⟨r, upper, ds, hne⟩ hlt
  · intro h
    have hmark : radixMark? ('0' :: r.mark upper :: rest) = some (r.base, rest) :=
      radixMark?_eq_some_iff.mpr ⟨r, upper, rfl, rfl⟩
    -- The mark tells the radix of a text that has digits after it.
    generalize '0' :: r.mark upper :: rest = cs at h hmark
    cases h with
    | denoted h hword =>
        obtain ⟨t, rfl, rfl⟩ := h.exists_radixText hmark
        rw [radixMark?_text] at hmark
        obtain ⟨hbase, hrest⟩ := Prod.mk.inj (Option.some.inj hmark)
        rw [← hbase, ← hrest, wordIn_eq_iff hx]
        exact ⟨t.digits, t.digits_ne_nil, .inl rfl, hword t rfl, rfl⟩
    | signed t hword =>
        rw [radixMark?_signedText] at hmark
        obtain ⟨hbase, hrest⟩ := Prod.mk.inj (Option.some.inj hmark)
        rw [← hbase, ← hrest, wordIn_eq_iff hx]
        exact ⟨t.digits, t.digits_ne_nil, .inr rfl, hword, rfl⟩

theorem numeral?_infinity (sign : SignMark) : numeral? (sign.text ++ "Infinity".toList) = none := by
  cases sign <;> rfl

/-- A text without a mark is read as the number which it denotes. -/
theorem numberOfText_unmarked_iff {s : String} {x : Float} (hmark : radixMark? (Text.trim s.toList) = none)
    (hx : x.isNaN = false) : numberOfText s = x ↔ Denotes (Text.trim s.toList) x := by
  have hnan : Double.nan ≠ x := by
    rintro rfl
    cases hx
  constructor
  · intro h
    by_cases hnil : Text.trim s.toList = []
    · rw [numberOfText_blank hnil] at h
      rw [hnil, ← h]
      exact .empty
    rw [numberOfText_unmarked hnil hmark] at h
    split at h
    next hinf =>
      obtain ⟨sign, htext⟩ := splitSign_infinity_iff.mp hinf
      rw [← h, htext, show (splitSign (sign.text ++ "Infinity".toList)).1 = sign.isNegative by cases sign <;> rfl]
      exact .infinity sign
    next =>
      cases hread : numeral? (Text.trim s.toList) with
      | none => rw [hread] at h; exact absurd h hnan
      | some numeral =>
          obtain ⟨sign, d, htext, rfl⟩ := numeral?_eq_some_iff.mp hread
          rw [hread] at h
          rw [htext, ← h]
          exact .decimal sign d
  · intro h
    generalize hcs : Text.trim s.toList = cs at h
    cases h with
    | empty => exact numberOfText_blank hcs
    | infinity sign =>
        rw [numberOfText_unmarked (by rw [hcs]; cases sign <;> exact List.cons_ne_nil _ _) hmark, hcs,
          if_pos (splitSign_infinity_iff.mpr ⟨sign, rfl⟩)]
        cases sign <;> rfl
    | decimal sign d =>
        -- It is neither empty nor an infinity, because neither of them is read as a decimal.
        have hread : numeral? (sign.text ++ d.text) = some (d.numeral sign) :=
          numeral?_eq_some_iff.mpr ⟨sign, d, rfl, rfl⟩
        have hne : sign.text ++ d.text ≠ [] := by
          intro hnil
          rw [hnil] at hread
          cases hread
        have hinf : (splitSign (sign.text ++ d.text)).2 ≠ "Infinity".toList := by
          intro hinf
          obtain ⟨sign', htext⟩ := splitSign_infinity_iff.mp hinf
          rw [htext, numeral?_infinity] at hread
          cases hread
        rw [numberOfText_unmarked (by rw [hcs]; exact hne) hmark, hcs, if_neg hinf, hread]
        rfl
    | radix t =>
        rw [hcs, radixMark?_text] at hmark
        cases hmark

/-- **A text is read as what is left of it without the blanks around it.** -/
theorem numberOfText_eq_iff {s : String} {x : Float} (hx : x.isNaN = false) :
    numberOfText s = x ↔ Reads (Text.trim s.toList) x := by
  cases hmark : radixMark? (Text.trim s.toList) with
  | none =>
      rw [numberOfText_unmarked_iff hmark hx]
      constructor
      · intro h
        refine .denoted h fun t ht => ?_
        rw [ht, radixMark?_text] at hmark
        cases hmark
      · intro h
        generalize Text.trim s.toList = cs at h hmark
        cases h with
        | denoted h hword => exact h
        | signed t hword =>
            rw [radixMark?_signedText] at hmark
            cases hmark
  | some found =>
      obtain ⟨base, rest⟩ := found
      obtain ⟨r, upper, rfl, htext⟩ := radixMark?_eq_some_iff.mp hmark
      rw [numberOfText_marked hmark, htext]
      exact wordIn_eq_iff_reads hx

end Value

/-! ## Where the reading is not the language's -/

/-- What is left of a text without the white space around it. -/
abbrev stripped (s : String) : List Char := Text.stripBy Text.isSpace s.toList

/-- The text is read in another way than the language reads it. -/
inductive Deviates (s : String) : Prop where
  /-- a next line stands beside a number that is read -/
  | nextLine {x : Float} (hmem : Text.nextLine ∈ s.toList) (h : Reads (Text.trim s.toList) x)
  /-- a byte order mark stands beside a number -/
  | byteOrderMark {x : Float} (hmem : Text.byteOrderMark ∈ s.toList) (h : Denotes (stripped s) x)
  /-- a plus stands between a mark and its digits -/
  | plus (t : RadixText) (h : Text.trim s.toList = t.signedText) (hword : t.number < 2 ^ 64)
  /-- the digits after a mark denote too much -/
  | overflow (t : RadixText) (h : stripped s = t.text) (hword : 2 ^ 64 ≤ t.number)

theorem stripped_eq_of_reads {s : String} {x : Float} (h : Reads (Text.trim s.toList) x)
    (hnone : Text.nextLine ∉ s.toList) : stripped s = Text.trim s.toList := by
  apply Text.stripBy_eq_stripBy
  · intro c hc hblank
    exact Text.isSpace_of_isBlank hblank (by rintro rfl; exact hnone hc)
  · intro c hc
    exact (InNumberRange.of_reads h c hc).isSpace

theorem trim_eq_of_denotes {s : String} {x : Float} (h : Denotes (stripped s) x)
    (hnone : Text.byteOrderMark ∉ s.toList) : Text.trim s.toList = stripped s := by
  apply Text.stripBy_eq_stripBy
  · intro c hc hspace
    exact Text.isBlank_of_isSpace hspace (by rintro rfl; exact hnone hc)
  · intro c hc
    exact (InNumberRange.of_denotes h c hc).isBlank

/-- A next line stays beside a number that the language would have to read. -/
theorem Denotes.nextLine_not_mem {s : String} {x : Float} (h : Denotes (stripped s) x) :
    Text.nextLine ∉ s.toList := by
  intro hmem
  have hin := InNumberRange.of_denotes h _ (Text.mem_stripBy hmem (by decide))
  exact absurd hin (by decide)

theorem Reads.byteOrderMark_not_mem {s : String} {x : Float} (h : Reads (Text.trim s.toList) x) :
    Text.byteOrderMark ∉ s.toList := by
  intro hmem
  rw [Text.trim_eq_stripBy] at h
  have hin := InNumberRange.of_reads h _ (Text.mem_stripBy hmem (by decide))
  exact absurd hin (by decide)

/-- A plus after a mark has no place in what denotes a number. -/
theorem not_denotes_signedText (t : RadixText) (x : Float) : ¬ Denotes t.signedText x := by
  intro h
  have hmark := radixMark?_signedText t
  obtain ⟨t', htext, -⟩ := h.exists_radixText hmark
  rw [htext, radixMark?_text] at hmark
  have hdigits := (Prod.mk.inj (Option.some.inj hmark)).2
  have hplus := Value.dropPlus_map_digitChar t'.radix t'.digits
  rw [hdigits, Value.dropPlus] at hplus
  exact List.cons_ne_self _ _ hplus.symm

/-- The two readings are one where no deviation is. -/
theorem reads_iff_denotes {s : String} (h : ¬ Deviates s) (x : Float) :
    Reads (Text.trim s.toList) x ↔ Denotes (stripped s) x := by
  constructor
  · intro hreads
    rw [stripped_eq_of_reads hreads fun hmem => h (.nextLine hmem hreads)]
    generalize hcs : Text.trim s.toList = cs at hreads
    cases hreads with
    | denoted hdenotes hword => exact hdenotes
    | signed t hword => exact absurd (.plus t hcs hword) h
  · intro hdenotes
    rw [trim_eq_of_denotes hdenotes fun hmem => h (.byteOrderMark hmem hdenotes)]
    refine .denoted hdenotes fun t ht => ?_
    by_contra hle
    exact h (.overflow t ht (Nat.le_of_not_lt hle))

namespace Value

theorem isNaN_numberOfText_iff {s : String} :
    (numberOfText s).isNaN = false ↔ ∃ x, Reads (Text.trim s.toList) x := by
  constructor
  · intro h
    exact ⟨_, (numberOfText_eq_iff h).mp rfl⟩
  · rintro ⟨x, hx⟩
    rw [(numberOfText_eq_iff hx.isNaN).mpr hx]
    exact hx.isNaN

/-- A text that deviates is a number for the reading alone or for the language alone. -/
theorem not_deviates_of_accepts {s : String} (haccept : (numberOfText s).isNaN = false ↔ ∃ x, Denotes (stripped s) x) :
    ¬ Deviates s := by
  rw [isNaN_numberOfText_iff] at haccept
  -- What the text is on the one side it would have to be on the other, where a character is in the way or, with the
  -- same characters stripped off, the digits are.
  rintro (⟨hmem, h⟩ | ⟨hmem, h⟩ | ⟨t, ht, hword⟩ | ⟨t, ht, hword⟩)
  · obtain ⟨y, hy⟩ := haccept.mp ⟨_, h⟩
    exact hy.nextLine_not_mem hmem
  · obtain ⟨y, hy⟩ := haccept.mpr ⟨_, h⟩
    exact hy.byteOrderMark_not_mem hmem
  · have hreads : Reads (Text.trim s.toList) (Float.ofNat t.number) := by
      rw [ht]
      exact .signed t hword
    obtain ⟨y, hy⟩ := haccept.mp ⟨_, hreads⟩
    rw [stripped_eq_of_reads hreads hy.nextLine_not_mem, ht] at hy
    exact not_denotes_signedText t y hy
  · have hdenotes : Denotes (stripped s) (Float.ofNat t.number) := by
      rw [ht]
      exact .radix t
    obtain ⟨y, hy⟩ := haccept.mpr ⟨_, hdenotes⟩
    rw [trim_eq_of_denotes hdenotes hy.byteOrderMark_not_mem, ht] at hy
    generalize hcs : t.text = cs at hy
    cases hy with
    | denoted h hall => exact absurd (hall t hcs.symm) (Nat.not_lt_of_le hword)
    | signed t' h =>
        rw [ht, hcs] at hdenotes
        exact not_denotes_signedText t' _ hdenotes

/-- **The number of a text.** A text is the number that is read in it without the blanks around, and for digits after a
mark that is the nearest one to what they denote. The language has a rule of its own: a text is a number just if without
the white space around it denotes one, and digits after a mark are the number that they denote. That rule is met just
where the text does not deviate. -/
theorem toNumber_string_agrees_iff (s : String) :
    (∀ x : Float, x.isNaN = false → ((Value.string s).toNumber = x ↔ Reads (Text.trim s.toList) x)) ∧
    (∀ t : RadixText, Text.trim s.toList = t.text ∨ Text.trim s.toList = t.signedText → t.number < 2 ^ 64 →
      Double.IsNearest t.number (Value.string s).toNumber) ∧
    ((((Value.string s).toNumber.isNaN = false ↔ ∃ x, Denotes (stripped s) x) ∧
      ∀ t : RadixText, stripped s = t.text → (Value.string s).toNumber = Float.ofNat t.number) ↔ ¬ Deviates s) := by
  refine ⟨fun x hx => numberOfText_eq_iff hx, ?_, ?_⟩
  · intro t ht hword
    have hreads : Reads (Text.trim s.toList) (Float.ofNat t.number) := by
      rcases ht with ht | ht
      · rw [ht]
        exact .denoted (.radix t) fun t' ht' => by rwa [← RadixText.number_eq_of_text ht']
      · rw [ht]
        exact .signed t hword
    have hvalue : (Value.string s).toNumber = Float.ofNat t.number :=
      (numberOfText_eq_iff hreads.isNaN).mpr hreads
    rw [hvalue]
    exact Double.isNearest_ofNat hword
  · constructor
    · rintro ⟨haccept, -⟩
      exact not_deviates_of_accepts haccept
    · intro hsame
      refine ⟨isNaN_numberOfText_iff.trans (exists_congr (reads_iff_denotes hsame)), fun t ht => ?_⟩
      have hdenotes : Denotes (stripped s) (Float.ofNat t.number) := by
        rw [ht]
        exact .radix t
      exact (numberOfText_eq_iff hdenotes.isNaN).mpr ((reads_iff_denotes hsame _).mpr hdenotes)

/-- Each of the deviations occurs, and there are texts without any. -/
theorem toNumber_string_agrees_iff_each :
    ((Value.string "0x+1f").toNumber = 31.0 ∧ Deviates "0x+1f") ∧
    ((Value.string "0x10000000000000000").toNumber = Double.nan ∧ Deviates "0x10000000000000000") ∧
    ((Value.string "\uFEFF1").toNumber = Double.nan ∧ Deviates "\uFEFF1") ∧
    ((Value.string "\u00851").toNumber = 1.0 ∧ Deviates "\u00851") ∧
    (Value.string " 0x1F\n").toNumber = 31.0 ∧ ¬ Deviates " 0x1F\n" := by
  have hone : Denotes (stripped "\uFEFF1") _ :=
    .decimal .none ⟨['1'], none, none, by decide, by simp, by decide⟩
  have hread : Reads (Text.trim "\u00851".toList) 1.0 := (numberOfText_eq_iff rfl).mp (by decide +kernel)
  let t : RadixText := ⟨.hexadecimal, false, [(1, false), (15, true)], by decide⟩
  have ht : stripped " 0x1F\n" = t.text := by decide
  have hdenotes : Denotes (stripped " 0x1F\n") (Float.ofNat t.number) := by
    rw [ht]
    exact .radix t
  refine ⟨⟨by decide +kernel, ?_⟩, ⟨by decide +kernel, ?_⟩, ⟨by decide +kernel, ?_⟩, ⟨by decide +kernel, ?_⟩,
    by decide +kernel, ?_⟩
  · exact .plus ⟨.hexadecimal, false, [(1, false), (15, false)], by decide⟩ (by decide) (by decide)
  · exact .overflow ⟨.hexadecimal, false, (1, false) :: List.replicate 16 (0, false), by decide⟩ (by decide) (by decide)
  · exact .byteOrderMark (by decide) hone
  · exact .nextLine (by decide) hread
  · refine (toNumber_string_agrees_iff _).2.2.mp ⟨⟨fun _ => ⟨_, hdenotes⟩, fun _ => by decide +kernel⟩, ?_⟩
    intro t' ht'
    rw [← RadixText.number_eq_of_text (ht.symm.trans ht')]
    decide +kernel

end Value

/-! ## The numbers of composite values -/

theorem Double.eq_nan {x : Float} (h : x.isNaN = true) : x = nan := by
  have hparts : (parts x).isNaN = true := h
  apply ext_parts
  cases hx : parts x with
  | notANumber => rfl
  | infinity s => rw [hx] at hparts; cases hparts
  | zero s => rw [hx] at hparts; cases hparts
  | finite s m e hm => rw [hx] at hparts; cases hparts

namespace Value

/-- A character that no number has, and that is no blank, keeps its text from being one. -/
theorem numberOfText_of_mem {s : String} {c : Char} (hc : c ∈ s.toList) (hblank : Text.isBlank c = false)
    (hrange : ¬ InNumberRange c) : numberOfText s = Double.nan := by
  apply Double.eq_nan
  by_contra hnan
  obtain ⟨x, hx⟩ := isNaN_numberOfText_iff.mp (Bool.not_eq_true _ ▸ hnan)
  rw [Text.trim_eq_stripBy] at hx
  exact hrange (InNumberRange.of_reads hx c (Text.mem_stripBy hc hblank))

/-- Between two items of an array there is a comma. -/
theorem comma_mem_text (first second : Value) (rest : List Value) :
    ',' ∈ (Value.array (first :: second :: rest)).text.toList := by
  rw [text, itemTexts, itemTexts, String.intercalate_cons_cons]
  simp

theorem text_singleton (item : Value) :
    (Value.array [item]).text = if item.isNullish then "" else item.text := by
  rw [text, itemTexts, itemTexts, String.intercalate_singleton]

theorem numberOfText_of_isNullish {item : Value} (h : item.isNullish = true) :
    numberOfText item.text = Double.nan := by
  cases item with
  | undefined => decide +kernel
  | null => decide +kernel
  | bool b | number x | string s | array items | object entries => cases h

/-- **The number of an array or object is the number of its text**, unless it is an array whose one item is
`undefined` or `null`. That item leaves no trace in the text of the array, which is zero, while the number is taken
from the item's own text. -/
theorem toNumber_composite_iff {v : Value} (hv : v.isPrimitive = false) :
    v.toNumber = (Value.string v.text).toNumber ↔ ¬ ∃ item : Value, v = .array [item] ∧ item.isNullish = true := by
  cases v with
  | undefined | null | bool b | number x | string s => cases hv
  | object entries =>
      have htext : numberOfText "[object Object]" = Double.nan := by decide +kernel
      refine iff_of_true htext.symm ?_
      rintro ⟨item, h, -⟩
      cases h
  | array items =>
      rcases items with _ | ⟨first, _ | ⟨second, rest⟩⟩
      · refine iff_of_true rfl ?_
        rintro ⟨item, h, -⟩
        cases h
      · show numberOfText first.text = numberOfText (Value.array [first]).text ↔ _
        rw [text_singleton]
        by_cases hnullish : first.isNullish = true
        · rw [if_pos hnullish]
          have hnan : numberOfText first.text = Double.nan := numberOfText_of_isNullish hnullish
          refine iff_of_false ?_ (not_not_intro ⟨first, rfl, hnullish⟩)
          rw [hnan]
          decide +kernel
        · rw [if_neg hnullish]
          refine iff_of_true rfl ?_
          rintro ⟨item, h, hitem⟩
          cases h
          exact hnullish hitem
      · -- A comma is no part of a number.
        refine iff_of_true (numberOfText_of_mem (comma_mem_text first second rest) (by decide) (by decide)).symm ?_
        rintro ⟨item, h, -⟩
        cases h

/-- A `null` alone in an array makes a difference, but not one level deeper. -/
theorem toNumber_composite_iff_null :
    (Value.array [.null]).toNumber = Double.nan ∧ (Value.string (Value.array [.null]).text).toNumber = 0.0 ∧
      (Value.array [.null]).toNumber ≠ (Value.string (Value.array [.null]).text).toNumber ∧
      (Value.array [.array [.null]]).toNumber = (Value.string (Value.array [.array [.null]]).text).toNumber := by
  refine ⟨by decide +kernel, by decide +kernel, ?_, (toNumber_composite_iff rfl).mpr ?_⟩
  · rw [ne_eq, toNumber_composite_iff rfl, not_not]
    exact ⟨.null, rfl, rfl⟩
  · rintro ⟨item, h, hitem⟩
    cases h
    cases hitem

end Value

end Minifier
