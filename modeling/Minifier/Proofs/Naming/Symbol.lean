import Mathlib.Data.List.Nodup
import Minifier.Naming.Symbol

/-!
# Symbols are distinct

Shuffling only moves letters, so that the alphabet of a seed has every letter once
(`nodup_alphabet`). Over an alphabet without repetitions different numbers spell different words
(`spell_injective`), and a generator hands out symbols in the order of their numbers
(`find?_eq_some`).
-/

namespace Minifier.Naming

/-! ## The alphabet -/

theorem swapIfInBounds_perm (letters : Array Char) (i j : Nat) :
    (letters.swapIfInBounds i j).Perm letters := by
  unfold Array.swapIfInBounds
  split
  · split
    · exact Array.swap_perm _ _
    · exact .refl letters
  · exact .refl letters

theorem shuffleFrom_perm (key : Key) (letters : Array Char) (draws : Draws) (i count : Nat) :
    (shuffleFrom key letters draws i count).Perm letters.toList := by
  induction count generalizing letters draws i with
  | zero => exact .refl letters.toList
  | succ count ih =>
      rw [shuffleFrom]
      exact (ih _ _ _).trans (Array.perm_iff_toList_perm.mp (swapIfInBounds_perm ..))

/-- The alphabet of a seed is a permutation of the letters. -/
theorem alphabet_perm (seed : UInt64) : (alphabet seed).Perm letters := by
  unfold alphabet
  exact shuffleFrom_perm ..

theorem nodup_alphabet (seed : UInt64) : (alphabet seed).Nodup :=
  (alphabet_perm seed).nodup_iff.mpr (by decide)

theorem length_alphabet (seed : UInt64) : (alphabet seed).length = 52 :=
  (alphabet_perm seed).length_eq

/-- The alphabet of the default seed. -/
theorem alphabet_zero :
    alphabet 0 = "LohdPITtAlMwJSzBrRejkaxpmQNYqGcvXynfKWHDOVFbsuZgUiEC".toList := by
  decide +kernel

/-! ## Words -/

section Words

variable {alphabet : List Char}

theorem spell_of_lt {n : Nat} (h : n < alphabet.length) : spell alphabet n = [alphabet[n]] := by
  rw [spell, if_pos (.inr h), List.getElem?_eq_getElem h]
  rfl

theorem spell_of_le {n : Nat} (hmod : n % alphabet.length < alphabet.length)
    (h : alphabet.length ≤ n) :
    spell alphabet n
      = spell alphabet (n / alphabet.length - 1) ++ [alphabet[n % alphabet.length]] := by
  rw [spell, if_neg (by omega), List.getElem?_eq_getElem hmod]
  rfl

theorem spell_ne_nil (hpos : 0 < alphabet.length) (n : Nat) : spell alphabet n ≠ [] := by
  by_cases h : n < alphabet.length
  · rw [spell_of_lt h]
    exact List.cons_ne_nil _ _
  · rw [spell_of_le (Nat.mod_lt n hpos) (by omega)]
    simp

/-- Words have no letters but those of the alphabet. -/
theorem mem_of_mem_spell {n : Nat} {c : Char} (h : c ∈ spell alphabet n) : c ∈ alphabet := by
  induction n using Nat.strongRecOn with
  | ind n ih =>
      have hletter (i : Nat) (hi : c ∈ alphabet[i]?.toList) : c ∈ alphabet :=
        List.mem_of_getElem? (Option.mem_toList.mp hi)
      rw [spell] at h
      split at h
      · exact hletter n h
      · rename_i hlarge
        have hless : n / alphabet.length - 1 < n := by
          have := Nat.div_le_self n alphabet.length
          omega
        rcases List.mem_append.mp h with h | h
        · exact ih _ hless h
        · exact hletter _ h

theorem two_le_length_spell (hpos : 0 < alphabet.length) {n : Nat} (h : alphabet.length ≤ n) :
    2 ≤ (spell alphabet n).length := by
  have hfront := List.length_pos_iff.mpr (spell_ne_nil hpos (n / alphabet.length - 1))
  rw [spell_of_le (Nat.mod_lt n hpos) h, List.length_append, List.length_singleton]
  omega

/-- **Different numbers spell different words.** -/
theorem spell_injective (hpos : 0 < alphabet.length) (hnodup : alphabet.Nodup) {n m : Nat}
    (h : spell alphabet n = spell alphabet m) : n = m := by
  induction n using Nat.strongRecOn generalizing m with
  | ind n ih =>
      by_cases hn : n < alphabet.length
      · by_cases hm : m < alphabet.length
        · rw [spell_of_lt hn, spell_of_lt hm] at h
          exact hnodup.getElem_inj_iff.mp (List.cons.inj h).1
        · have hlength := two_le_length_spell hpos (Nat.le_of_not_lt hm)
          rw [← h, spell_of_lt hn, List.length_singleton] at hlength
          omega
      · by_cases hm : m < alphabet.length
        · have hlength := two_le_length_spell hpos (Nat.le_of_not_lt hn)
          rw [h, spell_of_lt hm, List.length_singleton] at hlength
          omega
        · have hnk : alphabet.length ≤ n := by omega
          have hmk : alphabet.length ≤ m := by omega
          -- The last letters give the remainders, the rest of the words gives the quotients.
          rw [spell_of_le (Nat.mod_lt n hpos) hnk, spell_of_le (Nat.mod_lt m hpos) hmk] at h
          obtain ⟨hfront, hlast⟩ := List.append_inj' h rfl
          have hmod : n % alphabet.length = m % alphabet.length :=
            hnodup.getElem_inj_iff.mp (List.cons.inj hlast).1
          have hdivn : 1 ≤ n / alphabet.length := (Nat.one_le_div_iff hpos).mpr hnk
          have hdivm : 1 ≤ m / alphabet.length := (Nat.one_le_div_iff hpos).mpr hmk
          have hless : n / alphabet.length - 1 < n := by
            have := Nat.div_le_self n alphabet.length
            omega
          have hdiv : n / alphabet.length = m / alphabet.length := by
            have := ih _ hless hfront
            omega
          rw [← Nat.div_add_mod n alphabet.length, ← Nat.div_add_mod m alphabet.length, hdiv, hmod]

end Words

/-! ## Generators -/

namespace Generator

/-- The symbol with a number. -/
def nth (g : Generator) (n : Nat) : String := String.ofList (spell g.alphabet n)

/-- The generator has no letter twice. -/
structure Sound (g : Generator) : Prop where
  pos : 0 < g.alphabet.length
  nodup : g.alphabet.Nodup

@[simp] theorem alphabet_ofSeed (seed : UInt64) : (ofSeed seed).alphabet = Naming.alphabet seed := by
  simp only [ofSeed]

theorem sound_ofSeed (seed : UInt64) : (ofSeed seed).Sound := by
  constructor
  · rw [alphabet_ofSeed, length_alphabet]
    omega
  · rw [alphabet_ofSeed]
    exact nodup_alphabet seed

theorem nth_injective {g : Generator} (hg : g.Sound) {n m : Nat} (h : g.nth n = g.nth m) : n = m :=
  spell_injective hg.pos hg.nodup (String.ofList_injective h)

/-- What a search finds is a symbol not used before, and the generator goes on behind it. -/
theorem find?_eq_some {g g' : Generator} {p : String → Bool} {tries : Nat} {s : String}
    (h : g.find? p tries = some (s, g')) :
    ∃ n, g.used ≤ n ∧ s = g.nth n ∧ p s = true ∧ g' = { g with used := n + 1 } := by
  induction tries generalizing g with
  | zero => cases h
  | succ tries ih =>
      rw [find?] at h
      split at h
      · rename_i hp
        cases h
        exact ⟨g.used, Nat.le_refl _, rfl, hp, rfl⟩
      · obtain ⟨n, hn, hs, hp, hg'⟩ := ih h
        exact ⟨n, Nat.le_of_succ_le hn, hs, hp, hg'⟩

end Generator

end Minifier.Naming
