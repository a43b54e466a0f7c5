import Mathlib.Data.List.Lex
import Minifier.Value.Operator

/-!
# The order of strings

Equality of strings is decided on their characters, their order on their UTF-16 units. The two agree because
units can be read back: `Encodes` says what units stand for which characters, a text has exactly one encoding
(`encodes_iff`), and no two texts share it (`units_injective`). So the operators on strings are those of the
lexicographic order of units, which is linear (`string_order`).
-/

namespace Minifier

namespace Text

/-! ## Encodings -/

/-- The units encode the characters. A character below U+10000 is its own unit. Any other is a pair of
surrogates, of which the first holds the upper ten bits of its distance from U+10000 and the second the lower
ten. -/
inductive Encodes : List Nat → List Char → Prop
  | nil : Encodes [] []
  | unit {u : Nat} {c : Char} {us : List Nat} {cs : List Char} (hu : u < 0x10000) (hc : c.toNat = u)
      (rest : Encodes us cs) : Encodes (u :: us) (c :: cs)
  | pair {high low : Nat} {c : Char} {us : List Nat} {cs : List Char}
      (hhigh : 0xD800 ≤ high ∧ high < 0xDC00) (hlow : 0xDC00 ≤ low ∧ low < 0xE000)
      (hc : c.toNat = 0x10000 + 0x400 * (high - 0xD800) + (low - 0xDC00))
      (rest : Encodes us cs) : Encodes (high :: low :: us) (c :: cs)

/-- A character is no surrogate. -/
theorem toNat_valid (c : Char) : c.toNat < 0xD800 ∨ 0xE000 ≤ c.toNat ∧ c.toNat < 0x110000 := by
  have hvalid : c.toNat < 0xD800 ∨ 0xDFFF < c.toNat ∧ c.toNat < 0x110000 := c.valid
  omega

theorem encodes_flatMap (cs : List Char) : Encodes (cs.flatMap unitsOfChar) cs := by
  induction cs with
  | nil => exact .nil
  | cons c cs ih =>
      have hvalid := toNat_valid c
      rw [List.flatMap_cons, unitsOfChar]
      split
      · rename_i hsmall
        exact .unit hsmall rfl ih
      · exact .pair (by omega) (by omega) (by omega) ih

theorem eq_flatMap_of_encodes {us : List Nat} {cs : List Char} (h : Encodes us cs) :
    us = cs.flatMap unitsOfChar := by
  induction h with
  | nil => rfl
  | unit hu hc _ ih => simp [unitsOfChar, hc, hu, ← ih]
  | @pair high low c us cs hhigh hlow hc _ ih =>
      have hlarge : ¬ c.toNat < 0x10000 := by omega
      have hfirst : 0xD800 + (c.toNat - 0x10000) / 0x400 = high := by omega
      have hsecond : 0xDC00 + (c.toNat - 0x10000) % 0x400 = low := by omega
      simp [unitsOfChar, hlarge, hfirst, hsecond, ← ih]

/-- A text has one encoding, its units. -/
theorem encodes_iff {us : List Nat} {s : String} : Encodes us s.toList ↔ us = units s := by
  constructor
  · intro h
    exact eq_flatMap_of_encodes h
  · rintro rfl
    exact encodes_flatMap s.toList

/-- Units can be read in one way only, because no character is a surrogate. -/
theorem Encodes.inj {us : List Nat} {cs ds : List Char} (h : Encodes us cs) (h' : Encodes us ds) :
    cs = ds := by
  induction h generalizing ds with
  | nil =>
      cases h'
      rfl
  | @unit u c us cs hu hc _ ih =>
      have hvalid := toNat_valid c
      cases h' with
      | unit hu' hd rest => rw [Char.toNat_inj.mp (hc.trans hd.symm), ih rest]
      | pair hhigh hlow hd rest => omega
  | @pair high low c us cs hhigh hlow hc _ ih =>
      cases h' with
      | @unit _ d _ _ hu hd rest =>
          have hvalid := toNat_valid d
          omega
      | pair hhigh' hlow' hd rest => rw [Char.toNat_inj.mp (hc.trans hd.symm), ih rest]

theorem units_injective {s t : String} (h : units s = units t) : s = t := by
  apply String.toList_injective
  exact (encodes_iff.mpr rfl).inj (encodes_iff.mpr h)

/-! ## The order of units -/

theorem compareUnits_eq_lt_iff {us vs : List Nat} : compareUnits us vs = .lt ↔ us < vs := by
  fun_induction compareUnits us vs with
  | case1 => simp
  | case2 => simp
  | case3 => simp
  | case4 u us v vs h => simp [List.cons_lt_cons_iff, h]
  | case5 u us v vs h h' =>
      have hne : u ≠ v := by omega
      simp [List.cons_lt_cons_iff, h, hne]
  | case6 u us v vs h h' ih =>
      obtain rfl : u = v := by omega
      simp [ih]

theorem compareUnits_swap (us vs : List Nat) : compareUnits vs us = (compareUnits us vs).swap := by
  fun_induction compareUnits us vs with
  | case1 => rfl
  | case2 => rfl
  | case3 => rfl
  | case4 u us v vs h => simp [compareUnits, h, Nat.not_lt.mpr (Nat.le_of_lt h)]
  | case5 u us v vs h h' => simp [compareUnits, h']
  | case6 u us v vs h h' ih => simp [compareUnits, h, h', ih]

theorem compareUnits_eq_gt_iff {us vs : List Nat} : compareUnits us vs = .gt ↔ vs < us := by
  rw [← compareUnits_eq_lt_iff, compareUnits_swap us vs, Ordering.swap_eq_lt]

theorem units_ofList (cs : List Char) : units (String.ofList cs) = cs.flatMap unitsOfChar := by
  rw [units, String.toList_ofList]

/-- Where two texts differ for the first time, a character beyond U+FFFF comes before one from U+E000 on. -/
theorem units_lt_of_supplementary {c d : Char} (hc : 0x10000 ≤ c.toNat)
    (hd : 0xE000 ≤ d.toNat ∧ d.toNat < 0x10000) (before after after' : List Char) :
    units (String.ofList (before ++ c :: after)) < units (String.ofList (before ++ d :: after')) := by
  have hvalid := toNat_valid c
  have hlt : 0xD800 + (c.toNat - 0x10000) / 0x400 < d.toNat := by omega
  rw [units_ofList, units_ofList, List.flatMap_append, List.flatMap_append]
  apply List.append_left_lt
  simp [unitsOfChar, Nat.not_lt.mpr hc, hd.2, List.cons_lt_cons_iff, hlt]

end Text

namespace Value

open Text (units Encodes)

/-! ## The operators -/

/-- What the operators that compare by order say of two strings. -/
theorem binary?_order (a b : String) :
    binary? .less (.string a) (.string b) = some (.bool (decide (units a < units b))) ∧
    binary? .greater (.string a) (.string b) = some (.bool (decide (units b < units a))) ∧
    binary? .lessEqual (.string a) (.string b) = some (.bool !decide (units b < units a)) ∧
    binary? .greaterEqual (.string a) (.string b) = some (.bool !decide (units a < units b)) := by
  simp only [← @Text.compareUnits_eq_lt_iff (units a) (units b),
    ← @Text.compareUnits_eq_gt_iff (units a) (units b)]
  cases h : Text.compareUnits (units a) (units b) <;>
    simp [binary?, isPrimitive, applyBinary, compare?, Text.compare, h]

/-- What the operators that compare for equality say of two strings. -/
theorem binary?_equality (a b : String) :
    binary? .identical (.string a) (.string b) = some (.bool (decide (units a = units b))) ∧
    binary? .equal (.string a) (.string b) = binary? .identical (.string a) (.string b) := by
  have hiff : units a = units b ↔ a = b := ⟨Text.units_injective, congrArg units⟩
  simp [binary?, isPrimitive, applyBinary, identical, equalPrimitives, isNullish, hiff, Bool.beq_eq_decide_eq]

/-- **Strings are ordered by their units.** Of two strings exactly one of `<`, `===` and `>` is true, `<=` denies
`>`, and all of them read the lexicographic order of the one UTF-16 encoding that a string has. -/
theorem string_order (a b c : String) :
    (∃ less same greater : Bool,
      binary? .less (.string a) (.string b) = some (.bool less) ∧
      binary? .identical (.string a) (.string b) = some (.bool same) ∧
      binary? .greater (.string a) (.string b) = some (.bool greater) ∧
      [less, same, greater].count true = 1 ∧
      binary? .lessEqual (.string a) (.string b) = some (.bool !greater)) ∧
    (binary? .less (.string a) (.string b) = some (.bool true) →
      binary? .less (.string b) (.string c) = some (.bool true) →
        binary? .less (.string a) (.string c) = some (.bool true)) ∧
    binary? .lessEqual (.string a) (.string b) = binary? .greaterEqual (.string b) (.string a) ∧
    binary? .equal (.string a) (.string b) = binary? .identical (.string a) (.string b) ∧
    (∀ us, Encodes us a.toList ↔ us = units a) ∧
    (binary? .less (.string a) (.string b) = some (.bool true) ↔ units a < units b) ∧
    ∀ (before after after' : List Char) (x y : Char), 0x10000 ≤ x.toNat →
      0xE000 ≤ y.toNat ∧ y.toNat < 0x10000 →
        binary? .less (.string (String.ofList (before ++ x :: after)))
          (.string (String.ofList (before ++ y :: after'))) = some (.bool true) := by
  obtain ⟨hless, hgreater, hlessEqual, -⟩ := binary?_order a b
  obtain ⟨hidentical, hequal⟩ := binary?_equality a b
  refine ⟨⟨_, _, _, hless, hidentical, hgreater, ?_, hlessEqual⟩, ?_, ?_, hequal,
    fun us => Text.encodes_iff, ?_, ?_⟩
  · rcases lt_trichotomy (units a) (units b) with h | h | h
    · simp [h, h.ne, h.not_gt]
    · simp [h]
    · simp [h, h.ne', h.not_gt]
  · simp only [(binary?_order _ _).1, Option.some.injEq, Value.bool.injEq, decide_eq_true_eq]
    exact lt_trans
  · rw [hlessEqual, (binary?_order b a).2.2.2]
  · simp [hless]
  · intro before after after' x y hx hy
    rw [(binary?_order _ _).1, decide_eq_true (Text.units_lt_of_supplementary hx hy before after after')]

/-- A letter, a character beyond U+FFFF, and one of the last below it. -/
theorem string_order_supplementary :
    binary? .less (.string "a") (.string "😀") = some (.bool true) ∧
    binary? .less (.string "😀") (.string "\uFF5E") = some (.bool true) ∧
    binary? .less (.string "a") (.string "\uFF5E") = some (.bool true) := by
  have hfirst : binary? .less (.string "a") (.string "😀") = some (.bool true) := rfl
  have hsecond : binary? .less (.string "😀") (.string "\uFF5E") = some (.bool true) :=
    (string_order "😀" "\uFF5E" "").2.2.2.2.2.2 [] [] [] '😀' '\uFF5E' (by decide) (by decide)
  exact ⟨hfirst, hsecond, (string_order "a" "😀" "\uFF5E").2.1 hfirst hsecond⟩

end Value

end Minifier
