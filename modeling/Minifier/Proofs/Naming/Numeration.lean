import Mathlib.Data.List.Induction
import Mathlib.Data.List.Shortlex
import Mathlib.Data.Set.Function
import Minifier.Proofs.Naming.Draws
import Minifier.Proofs.Naming.Symbol

/-!
# Numbering words

Over an alphabet of `k` letters the words of one letter have the numbers below `k`, and a word of more letters has
the number `k * (m + 1) + r`, where `m` is the number of the word without its last letter and `r` the place of
that letter. Every number is of one of the two forms (`lt_or_exists_digits`), and `spell` takes it apart
accordingly (`spell_of_lt`, `spell_digits`). So each word has a number (`exists_spell`), and numbers are in the
order of their words, by length first and then by letters (`shortlex_spell`).

The main statement, `numeration_shortlex`, puts this together with what a seed makes of the letters.
-/

namespace Minifier.Naming

/-! ## Numbers by their digits -/

section Words

variable {alphabet : List Char}

theorem lt_or_exists_digits (hpos : 0 < alphabet.length) (n : Nat) :
    n < alphabet.length ∨
      ∃ m r, m < n ∧ r < alphabet.length ∧ n = alphabet.length * (m + 1) + r := by
  rcases Nat.lt_or_ge n alphabet.length with h | h
  · exact .inl h
  · have hquotient : 1 ≤ n / alphabet.length := (Nat.one_le_div_iff hpos).mpr h
    have hle := Nat.div_le_self n alphabet.length
    refine .inr ⟨n / alphabet.length - 1, n % alphabet.length, by omega, Nat.mod_lt n hpos, ?_⟩
    rw [Nat.sub_add_cancel hquotient, Nat.div_add_mod]

theorem spell_digits {m r : Nat} (hr : r < alphabet.length) :
    spell alphabet (alphabet.length * (m + 1) + r) = spell alphabet m ++ [alphabet[r]] := by
  have hmod : (alphabet.length * (m + 1) + r) % alphabet.length = r := by
    rw [Nat.mul_add_mod, Nat.mod_eq_of_lt hr]
  have hdiv : (alphabet.length * (m + 1) + r) / alphabet.length = m + 1 := by
    rw [Nat.mul_add_div (by omega), Nat.div_eq_of_lt hr, Nat.add_zero]
  have hle : alphabet.length ≤ alphabet.length * (m + 1) + r :=
    Nat.le_trans (Nat.le_mul_of_pos_right _ (Nat.succ_pos m)) (Nat.le_add_right _ r)
  rw [spell_of_le (by rwa [hmod]) hle]
  simp only [hmod, hdiv, Nat.add_sub_cancel]

/-- Numbers with different digits before the last are ordered by these, others by the last digit. -/
theorem digits_lt {k p q r s : Nat} (hs : s < k) (h : k * (p + 1) + r < k * (q + 1) + s) :
    p < q ∨ p = q ∧ r < s := by
  rcases Nat.lt_trichotomy p q with hlt | rfl | hgt
  · exact .inl hlt
  · exact .inr ⟨rfl, by omega⟩
  · have hle : k * (q + 2) ≤ k * (p + 1) := Nat.mul_le_mul_left k (by omega)
    rw [Nat.mul_succ k (q + 1)] at hle
    omega

/-! ## All words -/

theorem exists_spell {w : List Char} (hw : w ≠ []) (hletters : ∀ c ∈ w, c ∈ alphabet) :
    ∃ n, spell alphabet n = w := by
  induction w using List.reverseRecOn with
  | nil => exact absurd rfl hw
  | append_singleton front c ih =>
      obtain ⟨r, hr, hc⟩ := List.mem_iff_getElem.mp (hletters c (by simp))
      cases front with
      | nil => exact ⟨r, by rw [spell_of_lt hr, hc, List.nil_append]⟩
      | cons b front =>
          obtain ⟨m, hm⟩ := ih (List.cons_ne_nil b front)
            (fun d hd => hletters d (List.mem_append_left [c] hd))
          exact ⟨alphabet.length * (m + 1) + r, by rw [spell_digits hr, hm, hc]⟩

/-! ## The order of words -/

/-- The one letter stands before the other in the alphabet. -/
def Precedes (alphabet : List Char) (a b : Char) : Prop := alphabet.idxOf a < alphabet.idxOf b

instance : Std.Asymm (Precedes alphabet) := ⟨fun _ _ h => Nat.lt_asymm h⟩

theorem precedes_getElem (hnodup : alphabet.Nodup) {r s : Nat} (hr : r < alphabet.length)
    (hs : s < alphabet.length) (h : r < s) : Precedes alphabet alphabet[r] alphabet[s] := by
  unfold Precedes
  rwa [hnodup.idxOf_getElem r hr, hnodup.idxOf_getElem s hs]

/-- A letter at the end of two words of the same length does not change their order. -/
theorem lex_concat {r : Char → Char → Prop} {v w : List Char} (h : List.Lex r v w)
    (hlength : v.length = w.length) (a b : Char) : List.Lex r (v ++ [a]) (w ++ [b]) := by
  induction h with
  | nil => simp at hlength
  | cons _ ih => exact .cons (ih (by simpa using hlength))
  | rel h => exact .rel h

theorem shortlex_concat {r : Char → Char → Prop} {v w : List Char} (h : List.Shortlex r v w) (a b : Char) :
    List.Shortlex r (v ++ [a]) (w ++ [b]) := by
  rcases List.shortlex_def.mp h with hlt | ⟨hlength, hlex⟩
  · exact .of_length_lt (by simpa using hlt)
  · exact .of_lex (by simpa using hlength) (lex_concat hlex hlength a b)

/-- **Greater numbers have later words.** -/
theorem shortlex_spell (hpos : 0 < alphabet.length) (hnodup : alphabet.Nodup) {m n : Nat} (h : m < n) :
    List.Shortlex (Precedes alphabet) (spell alphabet m) (spell alphabet n) := by
  induction n using Nat.strongRecOn generalizing m with
  | ind n ih =>
      rcases lt_or_exists_digits hpos m with hm | ⟨p, r, -, hr, rfl⟩
      · rcases Nat.lt_or_ge n alphabet.length with hn | hn
        · rw [spell_of_lt hm, spell_of_lt hn, List.shortlex_singleton_iff]
          exact precedes_getElem hnodup hm hn h
        · apply List.Shortlex.of_length_lt
          rw [spell_of_lt hm, List.length_singleton]
          exact two_le_length_spell hpos hn
      · rcases lt_or_exists_digits hpos n with hn | ⟨q, s, hq, hs, rfl⟩
        · -- A number with two digits is not below one with a single digit.
          have hle : alphabet.length ≤ alphabet.length * (p + 1) :=
            Nat.le_mul_of_pos_right _ (Nat.succ_pos p)
          omega
        · rw [spell_digits hr, spell_digits hs]
          rcases digits_lt hs h with hlt | ⟨rfl, hlt⟩
          · exact shortlex_concat (ih q hq hlt) _ _
          · apply List.Shortlex.append_left
            rw [List.shortlex_singleton_iff]
            exact precedes_getElem hnodup hr hs hlt

end Words

/-! ## The letters -/

/-- The letters are those of ASCII. -/
theorem mem_letters_iff {c : Char} : c ∈ letters ↔ c.isAlpha = true := by
  have hascii : ∀ n < 128, (Char.ofNat n ∈ letters ↔ (Char.ofNat n).isAlpha = true) := by
    decide +kernel
  by_cases hc : c.toNat < 128
  · have := hascii c.toNat hc
    rwa [Char.ofNat_toNat] at this
  · have hsmall : letters.all (fun d => d.toNat < 128) = true := by decide +kernel
    constructor
    · intro h
      exact absurd (by simpa using List.all_eq_true.mp hsmall c h) hc
    · intro h
      have hranges : (decide (65 ≤ c.val ∧ c.val ≤ 90) || (decide (97 ≤ c.val) && decide (c.val ≤ 122))) = true := h
      have halpha : (65 ≤ c.toNat ∧ c.toNat ≤ 90) ∨ (97 ≤ c.toNat ∧ c.toNat ≤ 122) := by
        simpa [UInt32.le_iff_toNat_le] using hranges
      omega

/-! ## Generators -/

/-- **The numeration of symbols.** Over an alphabet that has letters, and none twice, the numbers are the non-empty
words, in order: by length, and then by their letters. A seed makes an alphabet of the 52 letters of ASCII, by
swapping the letter at each place with the one at an index that is drawn from those up to the place. -/
theorem numeration_shortlex {alphabet : List Char} (hne : alphabet ≠ []) (hnodup : alphabet.Nodup) :
    Set.BijOn (spell alphabet) Set.univ {w | w ≠ [] ∧ ∀ c ∈ w, c ∈ alphabet} ∧
    (∀ m n, m < n ↔ List.Shortlex (Precedes alphabet) (spell alphabet m) (spell alphabet n)) ∧
    (letters.Nodup ∧ letters.length = 52 ∧ ∀ c, c ∈ letters ↔ c.isAlpha = true) ∧
    ∀ seed : UInt64,
      (Generator.ofSeed seed).alphabet.Perm letters ∧
      (Generator.ofSeed seed).alphabet
        = (swapEach letters.toArray 0 (indices (Stream.key seed) .first 0 52)).toList ∧
      (indices (Stream.key seed) .first 0 52).length = 52 ∧
      ∀ i j : Nat, (indices (Stream.key seed) .first 0 52)[i]? = some j → j ≤ i := by
  have hpos : 0 < alphabet.length := List.length_pos_iff.mpr hne
  refine ⟨⟨?_, ?_, ?_⟩, ?_, ⟨by decide, rfl, fun c => mem_letters_iff⟩, ?_⟩
  · intro n _
    exact ⟨spell_ne_nil hpos n, fun c hc => mem_of_mem_spell hc⟩
  · intro m _ n _ h
    exact spell_injective hpos hnodup h
  · rintro w ⟨hw, hletters⟩
    obtain ⟨n, hn⟩ := exists_spell hw hletters
    exact ⟨n, Set.mem_univ n, hn⟩
  · intro m n
    refine ⟨shortlex_spell hpos hnodup, fun h => ?_⟩
    rcases Nat.lt_trichotomy m n with hlt | rfl | hgt
    · exact hlt
    · exact absurd h (Std.Asymm.asymm _ _ h)
    · exact absurd h (Std.Asymm.asymm _ _ (shortlex_spell hpos hnodup hgt))
  · intro seed
    rw [Generator.alphabet_ofSeed]
    refine ⟨alphabet_perm seed, shuffleFrom_eq .., length_indices .., ?_⟩
    intro i j h
    have hle := indices_le Draws.first_sound (by decide) h
    omega

/-- The last word of two letters and the first of three. -/
theorem numeration_shortlex_pair :
    ['a', 'b'] ≠ [] ∧ ['a', 'b'].Nodup ∧ spell ['a', 'b'] 5 = ['b', 'b'] ∧
      spell ['a', 'b'] 6 = ['a', 'a', 'a'] ∧
      List.Shortlex (Precedes ['a', 'b']) (spell ['a', 'b'] 5) (spell ['a', 'b'] 6) := by
  have hne : ['a', 'b'] ≠ [] := by simp
  have hnodup : ['a', 'b'].Nodup := by simp
  refine ⟨hne, hnodup, by simp [spell], by simp [spell], ?_⟩
  exact ((numeration_shortlex hne hnodup).2.1 5 6).mp (by decide)

end Minifier.Naming
