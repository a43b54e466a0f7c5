import Mathlib.Data.List.Nodup
import Minifier.Mangle.Assignment
import Minifier.Proofs.Naming.Symbol

/-!
# Assigned names are new and distinct

No name that is given to a candidate occurs in the tree or is excluded, and no two candidates are given
the same one. The reason is that no candidate is given a name that is taken, and a name that was given is
taken from then on.
-/

namespace Minifier.Mangle

open Naming

theorem Taken.contains_give {taken : Taken} {s given : String} :
    (taken.give given).contains s = (taken.contains s || s == given) := by
  simp only [contains, give, List.contains_cons, Bool.or_assoc, Bool.or_comm (s == given)]

/-- No candidate is given a name that is taken. -/
theorem contains_of_mem_assignFrom {taken : Taken} {g : Generator} {candidates : List Candidate}
    {a : Assignment} (h : a ∈ assignFrom taken g candidates) :
    taken.contains a.generated = false := by
  induction candidates generalizing taken g with
  | nil => cases h
  | cons candidate rest ih =>
      rw [assignFrom] at h
      split at h
      · exact ih h
      · split at h
        · rename_i generated g' havailable
          rcases List.mem_cons.mp h with rfl | h
          · obtain ⟨_, _, _, hfree, _⟩ := Generator.find?_eq_some havailable
            simp only [Bool.and_eq_true, Bool.not_eq_true'] at hfree
            exact hfree.2
          · have hrest := ih h
            rw [Taken.contains_give, Bool.or_eq_false_iff] at hrest
            exact hrest.1
        · exact ih h

theorem nodup_assignFrom (taken : Taken) (g : Generator) (candidates : List Candidate) :
    ((assignFrom taken g candidates).map (·.generated)).Nodup := by
  induction candidates generalizing taken g with
  | nil => exact List.nodup_nil
  | cons candidate rest ih =>
      rw [assignFrom]
      split
      · exact ih taken g
      · split
        · rename_i generated g' _
          rw [List.map_cons, List.nodup_cons]
          refine ⟨fun hmem => ?_, ih (taken.give generated) g'⟩
          obtain ⟨b, hb, rfl⟩ := List.mem_map.mp hmem
          have hgiven := contains_of_mem_assignFrom hb
          rw [Taken.contains_give, Bool.or_eq_false_iff, beq_self_eq_true] at hgiven
          cases hgiven.2
        · exact ih taken g

/-! ## The names of candidates -/

variable {options : Options} {census : List String} {candidates : List Candidate}

theorem exists_of_generated? {assignments : List Assignment} {candidate : Candidate} {name : String}
    (h : generated? assignments candidate = some name) : ⟨candidate, name⟩ ∈ assignments := by
  obtain ⟨a, ha, rfl⟩ := Option.map_eq_some_iff.mp h
  have hcandidate : a.candidate = candidate := by simpa using List.find?_some ha
  rw [← hcandidate]
  exact List.mem_of_find?_eq_some ha

/-- **A name that is given occurs nowhere in the tree.** -/
theorem generated?_not_mem_census {candidate : Candidate} {name : String}
    (h : generated? (assign options census candidates) candidate = some name) : name ∉ census := by
  have havoided := contains_of_mem_assignFrom (exists_of_generated? h)
  intro hmem
  simp [Taken.contains, Taken.of, hmem] at havoided

/-- **No name is given twice.** -/
theorem generated?_injective {c c' : Candidate} {name : String}
    (h : generated? (assign options census candidates) c = some name)
    (h' : generated? (assign options census candidates) c' = some name) : c = c' := by
  have hnodup : ((assign options census candidates).map (·.generated)).Nodup :=
    nodup_assignFrom _ _ candidates
  have heq := List.inj_on_of_nodup_map hnodup (exists_of_generated? h) (exists_of_generated? h') rfl
  exact congrArg Assignment.candidate heq

end Minifier.Mangle
