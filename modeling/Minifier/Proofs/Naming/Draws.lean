import Mathlib.Data.Nat.Factorial.Basic
import Minifier.Naming.Alphabet

/-!
# The draws of a shuffle

A shuffle swaps the letter at each place with one at or before it. Which one is decided by draws, several of which
are held by one number: the draws for the bounds `k`, `k + 1`, …, `k + n - 1` by a number below their product,
`k.ascFactorial n`. That the number stays below the product of the bounds that are left is the invariant of the
draws (`Draws.Sound`). Every draw keeps it (`Draws.next_sound`), so that every index is drawn within its bound
(`indices_le`).
-/

namespace Minifier.Naming

/-! ## One number for several draws -/

/-- A draw is below its bound: where the whole part of the product is the greatest that is allowed, its fraction
is too small to be carried into. -/
theorem below_lt (key : Key) (place : Nat) {bound : Nat} (hpos : 0 < bound) (hbound : bound ≤ 0x100000000) :
    (below key place bound).1 < bound := by
  have hword := (Stream.word key place).toNat_lt
  have hproduct : (Stream.word key place).toNat * bound ≤ 4294967295 * bound :=
    Nat.mul_le_mul_right bound (by omega)
  unfold below
  generalize (Stream.word key place).toNat * bound = product at hproduct
  dsimp only
  split
  · dsimp only
    split <;> omega
  · dsimp only
    omega

theorem ascFactorial_one (k : Nat) : k.ascFactorial 1 = k := by
  simp [Nat.ascFactorial_succ]

/-- What is gathered is the product of the factors that were counted. -/
theorem gather_eq {k : Nat} (steps count : Nat) (hsmall : k.ascFactorial count < 0x100000000) :
    ∃ count', count ≤ count' ∧ k.ascFactorial count' < 0x100000000 ∧
      gather steps (k.ascFactorial count) (k + count) count = (k.ascFactorial count', count') := by
  induction steps generalizing count with
  | zero => exact ⟨count, Nat.le_refl count, hsmall, rfl⟩
  | succ steps ih =>
      have hnext : k.ascFactorial count * (k + count) = k.ascFactorial (count + 1) := by
        rw [Nat.ascFactorial_succ, Nat.mul_comm]
      rw [gather, hnext]
      split
      · rename_i hless
        obtain ⟨count', hle, hsmall', hgather⟩ := ih (count + 1) hless
        exact ⟨count', by omega, hsmall', hgather⟩
      · exact ⟨count, Nat.le_refl count, hsmall, rfl⟩

/-! ## The invariant -/

/-- The number holds draws for as many bounds from `k` on as are left. -/
def Draws.Sound (d : Draws) (k : Nat) : Prop := d.left ≠ 0 → d.chunk < k.ascFactorial d.left

namespace Draws

theorem first_sound : first.Sound 1 := by
  intro _
  decide

/-- The draws for the bounds from `k` on, with a new number if none is left. -/
def refill (key : Key) (d : Draws) (k : Nat) : Draws :=
  if d.left = 0 then
    let (bound, count) := gather 32 k (k + 1) 1
    let (chunk, place) := below key d.place bound
    ⟨place, chunk, count⟩
  else d

theorem refill_sound (key : Key) {d : Draws} {k : Nat} (hd : d.Sound k) (hpos : 0 < k)
    (hk : k < 0x100000000) : (d.refill key k).left ≠ 0 ∧ (d.refill key k).Sound k := by
  unfold refill
  split
  · obtain ⟨count, hcount, hsmall, hgather⟩ := gather_eq (k := k) 32 1 (by rwa [ascFactorial_one])
    rw [ascFactorial_one] at hgather
    have hproduct : 0 < k.ascFactorial count := by
      obtain ⟨k, rfl⟩ : ∃ j, k = j + 1 := ⟨k - 1, by omega⟩
      exact Nat.ascFactorial_pos k count
    rw [hgather]
    refine ⟨show count ≠ 0 by omega, ?_⟩
    intro _
    exact below_lt key d.place hproduct (Nat.le_of_lt hsmall)
  · rename_i hleft
    exact ⟨hleft, hd⟩

/-- **One draw.** It is below its bound, and the rest holds the draws for the bounds after it. -/
theorem next_sound (key : Key) {d : Draws} {k : Nat} (hd : d.Sound k) (hpos : 0 < k) (hk : k < 0x100000000) :
    (d.next key k).1 < k ∧ (d.next key k).2.Sound (k + 1) := by
  obtain ⟨hleft, hsound⟩ := refill_sound key hd hpos hk
  have hchunk := hsound hleft
  have hnext : d.next key k =
      if (d.refill key k).left ≤ 1 then ((d.refill key k).chunk, { d.refill key k with left := 0 })
      else ((d.refill key k).chunk % k,
        { d.refill key k with chunk := (d.refill key k).chunk / k, left := (d.refill key k).left - 1 }) := rfl
  rw [hnext]
  generalize d.refill key k = d at *
  obtain ⟨place, chunk, left⟩ := d
  split
  · rename_i hlast
    obtain rfl : left = 1 := by
      dsimp only at hleft hlast
      omega
    constructor
    · simpa [ascFactorial_one] using hchunk
    · intro h
      exact absurd rfl h
  · obtain ⟨rest, rfl⟩ : ∃ rest, left = rest + 1 := Nat.exists_eq_add_one_of_ne_zero hleft
    constructor
    · exact Nat.mod_lt chunk hpos
    · intro _
      have hsplit : k.ascFactorial (rest + 1) = k * (k + 1).ascFactorial rest := by
        rw [Nat.ascFactorial_succ, Nat.succ_ascFactorial]
      rw [hsplit] at hchunk
      exact Nat.div_lt_of_lt_mul hchunk

end Draws

/-! ## The shuffle -/

/-- The indices that are drawn for the places from `i` on, `count` of them. -/
def indices (key : Key) (draws : Draws) (i : Nat) : Nat → List Nat
  | 0 => []
  | count + 1 => (draws.next key (i + 1)).1 :: indices key (draws.next key (i + 1)).2 (i + 1) count

/-- Swap the letters at the places from `i` on with those at the indices. -/
def swapEach (letters : Array Char) (i : Nat) : List Nat → Array Char
  | [] => letters
  | j :: js => swapEach (letters.swapIfInBounds i j) (i + 1) js

theorem shuffleFrom_eq (key : Key) (letters : Array Char) (draws : Draws) (i count : Nat) :
    shuffleFrom key letters draws i count = (swapEach letters i (indices key draws i count)).toList := by
  induction count generalizing letters draws i with
  | zero => rfl
  | succ count ih =>
      rw [shuffleFrom, indices, swapEach]
      exact ih _ _ _

@[simp] theorem length_indices (key : Key) (draws : Draws) (i count : Nat) :
    (indices key draws i count).length = count := by
  induction count generalizing draws i with
  | zero => rfl
  | succ count ih => rw [indices, List.length_cons, ih]

/-- **Every index is drawn within its bound.** -/
theorem indices_le {key : Key} {draws : Draws} {i count t j : Nat} (hdraws : draws.Sound (i + 1))
    (hsmall : i + count < 0x100000000) (h : (indices key draws i count)[t]? = some j) : j ≤ i + t := by
  induction count generalizing draws i t with
  | zero => simp [indices] at h
  | succ count ih =>
      obtain ⟨hlt, hnext⟩ := Draws.next_sound key hdraws (by omega) (by omega)
      cases t with
      | zero =>
          obtain rfl : (draws.next key (i + 1)).1 = j := by simpa [indices] using h
          omega
      | succ t =>
          rw [indices, List.getElem?_cons_succ] at h
          have := ih hnext (by omega) h
          omega

end Minifier.Naming
