import Mathlib.Data.Set.Function
import Minifier.Proofs.Mangle.Lockstep

/-!
# What the seed decides

The seed decides which names are given, not who is given one. So the names of two runs correspond one to one,
by way of the candidates that hold them (`respell`), and two runs that differ in the seed are parallel
(`parallel_of_seeds`).
-/

namespace Minifier.Mangle

open Node

variable {t : Node} {first second : List Assignment} {c : Candidate} {g g' : String}

/-! ## Names and their holders -/

/-- The candidate that was given a name. -/
def holder? (assignments : List Assignment) (name : String) : Option Candidate :=
  (assignments.find? (·.generated == name)).map (·.candidate)

/-- What the holder of a name was given in another run. A name that was not given stays. -/
def respell (first second : List Assignment) (name : String) : String :=
  ((holder? first name).bind (generated? second)).getD name

/-- The names that were given. -/
def givenNames (assignments : List Assignment) : Set String := {g | ∃ c, ⟨c, g⟩ ∈ assignments}

/-- Each candidate was given one name, and each name to one candidate. -/
structure OneToOne (assignments : List Assignment) : Prop where
  candidates : (assignments.map (·.candidate)).Nodup
  generated : (assignments.map (·.generated)).Nodup

namespace OneToOne

theorem generated?_eq_some_iff (h : OneToOne first) :
    generated? first c = some g ↔ ⟨c, g⟩ ∈ first := by
  refine ⟨exists_of_generated?, fun hmem => ?_⟩
  have hfound : (first.find? (·.candidate == c)).isSome := by
    rw [List.find?_isSome]
    exact ⟨_, hmem, by simp⟩
  obtain ⟨a, ha⟩ := Option.isSome_iff_exists.mp hfound
  have hsame : a.candidate = c := by simpa using List.find?_some ha
  have heq : a = ⟨c, g⟩ :=
    List.inj_on_of_nodup_map h.candidates (List.mem_of_find?_eq_some ha) hmem hsame
  rw [generated?, ha, heq]
  rfl

theorem holder?_eq_some_iff (h : OneToOne first) : holder? first g = some c ↔ ⟨c, g⟩ ∈ first := by
  have hname : ∀ a, first.find? (·.generated == g) = some a → a ∈ first ∧ a.generated = g :=
    fun a ha => ⟨List.mem_of_find?_eq_some ha, by simpa using List.find?_some ha⟩
  constructor
  · intro hholder
    obtain ⟨a, ha, rfl⟩ := Option.map_eq_some_iff.mp hholder
    obtain ⟨hmem, rfl⟩ := hname a ha
    exact hmem
  · intro hmem
    have hfound : (first.find? (·.generated == g)).isSome := by
      rw [List.find?_isSome]
      exact ⟨_, hmem, by simp⟩
    obtain ⟨a, ha⟩ := Option.isSome_iff_exists.mp hfound
    obtain ⟨hmem', hsame⟩ := hname a ha
    have heq : a = ⟨c, g⟩ := List.inj_on_of_nodup_map h.generated hmem' hmem hsame
    rw [holder?, ha, heq]
    rfl

theorem respell_eq (h₁ : OneToOne first) (h₂ : OneToOne second) (hmem : ⟨c, g⟩ ∈ first)
    (hmem' : ⟨c, g'⟩ ∈ second) : respell first second g = g' := by
  rw [respell, h₁.holder?_eq_some_iff.mpr hmem, Option.bind_some, h₂.generated?_eq_some_iff.mpr hmem']
  rfl

theorem respell_of_not_given (h : OneToOne first) (hg : g ∉ givenNames first) :
    respell first second g = g := by
  cases hholder : holder? first g with
  | none =>
      rw [respell, hholder]
      rfl
  | some c => exact absurd ⟨c, h.holder?_eq_some_iff.mp hholder⟩ hg

end OneToOne

/-- A candidate that is given a name in one run is given one in the other. -/
theorem exists_mem_of_map_candidate (hsame : first.map (·.candidate) = second.map (·.candidate))
    (hmem : ⟨c, g⟩ ∈ first) : ∃ g', ⟨c, g'⟩ ∈ second := by
  have hc : c ∈ second.map (·.candidate) := hsame ▸ List.mem_map_of_mem hmem
  obtain ⟨⟨_, g'⟩, ha, rfl⟩ := List.mem_map.mp hc
  exact ⟨g', ha⟩

theorem generated?_eq_map_respell (h₁ : OneToOne first) (h₂ : OneToOne second)
    (hsame : first.map (·.candidate) = second.map (·.candidate)) (c : Candidate) :
    generated? second c = (generated? first c).map (respell first second) := by
  cases hfirst : generated? first c with
  | some g =>
      have hmem := exists_of_generated? hfirst
      obtain ⟨g', hmem'⟩ := exists_mem_of_map_candidate hsame hmem
      rw [Option.map_some, h₁.respell_eq h₂ hmem hmem', h₂.generated?_eq_some_iff]
      exact hmem'
  | none =>
      cases hsecond : generated? second c with
      | none => rfl
      | some g' =>
          obtain ⟨g, hmem⟩ := exists_mem_of_map_candidate hsame.symm (exists_of_generated? hsecond)
          rw [h₁.generated?_eq_some_iff.mpr hmem] at hfirst
          cases hfirst

theorem mapsTo_respell (h₁ : OneToOne first) (h₂ : OneToOne second)
    (hsame : first.map (·.candidate) = second.map (·.candidate)) :
    Set.MapsTo (respell first second) (givenNames first) (givenNames second) := by
  rintro g ⟨c, hmem⟩
  obtain ⟨g', hmem'⟩ := exists_mem_of_map_candidate hsame hmem
  exact ⟨c, (h₁.respell_eq h₂ hmem hmem').symm ▸ hmem'⟩

theorem leftInvOn_respell (h₁ : OneToOne first) (h₂ : OneToOne second)
    (hsame : first.map (·.candidate) = second.map (·.candidate)) :
    Set.LeftInvOn (respell second first) (respell first second) (givenNames first) := by
  rintro g ⟨c, hmem⟩
  obtain ⟨g', hmem'⟩ := exists_mem_of_map_candidate hsame hmem
  rw [h₁.respell_eq h₂ hmem hmem', h₂.respell_eq h₁ hmem' hmem]

/-- **The names of two runs correspond one to one.** -/
theorem bijOn_respell (h₁ : OneToOne first) (h₂ : OneToOne second)
    (hsame : first.map (·.candidate) = second.map (·.candidate)) :
    Set.BijOn (respell first second) (givenNames first) (givenNames second) :=
  Set.InvOn.bijOn ⟨leftInvOn_respell h₁ h₂ hsame, leftInvOn_respell h₂ h₁ hsame.symm⟩
    (mapsTo_respell h₁ h₂ hsame) (mapsTo_respell h₂ h₁ hsame.symm)

/-! ## Two seeds -/

theorem nodup_eraseDups {α : Type} [BEq α] [LawfulBEq α] (l : List α) : l.eraseDups.Nodup := by
  induction hlength : l.length using Nat.strongRecOn generalizing l with
  | ind length ih =>
      cases l with
      | nil => exact List.nodup_nil
      | cons a l =>
          have hless : (l.filter fun b => !b == a).length < length :=
            hlength ▸ Nat.lt_succ_of_le (List.length_filter_le _ l)
          rw [List.eraseDups_cons, List.nodup_cons]
          refine ⟨fun hmem => ?_, ih _ hless _ rfl⟩
          simpa using List.mem_eraseDups.mp hmem

theorem map_candidate_assignments (options : Options) (t : Node) :
    (Knowledge.of options t).assignments.map (·.candidate)
      = (candidates (sites t)).filter fun c => !options.reserved.contains c.name := by
  rw [show (Knowledge.of options t).assignments = _ from assignments_eq options t, List.map_map]
  exact List.zipIdx_map_fst ..

/-- Which candidates are given a name does not depend on the seed. -/
theorem map_candidate_eq (reserved : List String) (s₁ s₂ : UInt64) (t : Node) :
    (Knowledge.of ⟨reserved, s₁⟩ t).assignments.map (·.candidate)
      = (Knowledge.of ⟨reserved, s₂⟩ t).assignments.map (·.candidate) := by
  rw [map_candidate_assignments, map_candidate_assignments]

theorem oneToOne_assignments (options : Options) (t : Node) :
    OneToOne (Knowledge.of options t).assignments where
  candidates := by
    rw [map_candidate_assignments]
    exact (nodup_eraseDups _).filter _
  generated := nodup_assignFrom _ _ _

/-- **Two runs that differ in the seed are parallel.** -/
theorem parallel_of_seeds (reserved : List String) (s₁ s₂ : UInt64) (t : Node) :
    Parallel t
      (respell (Knowledge.of ⟨reserved, s₁⟩ t).assignments (Knowledge.of ⟨reserved, s₂⟩ t).assignments)
      (Knowledge.of ⟨reserved, s₁⟩ t) (Knowledge.of ⟨reserved, s₂⟩ t) := by
  have h₁ := oneToOne_assignments ⟨reserved, s₁⟩ t
  have h₂ := oneToOne_assignments ⟨reserved, s₂⟩ t
  have hsame := map_candidate_eq reserved s₁ s₂ t
  have hgenerated := generated?_eq_map_respell h₁ h₂ hsame
  refine ⟨rfl, rfl, fun name => ?_, hgenerated, fun c g hg => ⟨generated?_not_mem_census hg, ?_⟩,
    fun name hname => h₁.respell_of_not_given ?_⟩
  · have hany : ∀ k : Knowledge, k.isAssigned name
        = (k.assignments.map (·.candidate)).any (·.name == name) := by
      intro k
      rw [List.any_map]
      rfl
    rw [hany, hany, hsame]
  · have hg₂ := hgenerated c
    rw [hg, Option.map_some] at hg₂
    exact generated?_not_mem_census hg₂
  · rintro ⟨c, hmem⟩
    exact generated?_not_mem_census (h₁.generated?_eq_some_iff.mpr hmem) hname

/-- An identifier has another name after the run iff it was renamed. -/
theorem nameAt?_ne_iff (options : Options) (t : Node) (q : Path) :
    (mangle options t).1.nameAt? q ≠ t.nameAt? q ↔
      ∃ g, (Knowledge.of options t).changes ((Knowledge.of options t).effect Scope.resolve t)
        t.positions q = some (.renamed g) := by
  constructor
  · intro hne
    by_contra hnone
    apply hne
    cases hq : t.at? q with
    | none =>
        have hsketch := (tracks_mangle options t).tree q
        rw [sketch, sketch, hq] at hsketch
        have hgone : (mangle options t).1.at? q = none := Option.map_eq_none_iff.mp hsketch
        rw [nameAt?, nameAt?, hgone, hq]
    | some n =>
        rw [nameAt?_mangle hq, nameAt?, hq, Option.bind_some]
        rcases hchange : (Knowledge.of options t).changes
          ((Knowledge.of options t).effect Scope.resolve t) t.positions q with _ | g | _
        · rfl
        · exact absurd ⟨g, hchange⟩ hnone
        · exact name?_revise_expanded n
  · rintro ⟨g, hg⟩
    obtain ⟨⟨c, hc⟩, n, old, hq, hn, hname⟩ := renamed_of_changes rfl (fun _ hr => hr) hg
    rw [nameAt?_mangle (at?_of_met? hq), hg, nameAt?, at?_of_met? hq, Option.bind_some, hname,
      name?_revise_renamed]
    intro heq
    cases heq
    exact generated?_not_mem_census hc (mem_census hq hn hname)

/-- The flag of a node of the changed tree. -/
theorem Tracks.flag_eq {changes : Path → Option Change} {former : Path → Option String} {p : Progress}
    (h : Tracks t changes former p) (q : Path) (key : String) :
    (p.tree.at? q).map (·.flag key) = (t.at? q).map fun n => (revise n.outline (changes q)).flag key := by
  have hflags := congrArg (Option.map (·.flag key)) (h.tree q)
  simpa [sketch, Option.map_map, Function.comp_def] using hflags

theorem flag_revise_map (n : Node) (f : String → String) (change : Option Change) :
    (revise n (change.map (Change.map f))).flag "shorthand" = (revise n change).flag "shorthand" := by
  rcases change with _ | g | _
  · rfl
  · exact (flag_congr (get?_set_of_ne (by decide))).trans (flag_congr (get?_set_of_ne (by decide))).symm
  · rfl

/-- **The seed changes names only.** Two runs that differ in the seed give other names to the same
identifiers and write the same shorthand properties out. The names that they give correspond one to one,
and the correspondence, which leaves all other names alone, takes the one tree to the other. -/
theorem seeds_change_names_only (reserved : List String) (s₁ s₂ : UInt64) (t : Node) :
    (∀ q, (mangle ⟨reserved, s₁⟩ t).1.nameAt? q ≠ t.nameAt? q ↔
      (mangle ⟨reserved, s₂⟩ t).1.nameAt? q ≠ t.nameAt? q) ∧
    (∀ q, ((mangle ⟨reserved, s₁⟩ t).1.at? q).map (·.flag "shorthand")
      = ((mangle ⟨reserved, s₂⟩ t).1.at? q).map (·.flag "shorthand")) ∧
    ∃ f : String → String,
      Set.BijOn f (givenNames (mangle ⟨reserved, s₁⟩ t).2.assignments)
        (givenNames (mangle ⟨reserved, s₂⟩ t).2.assignments) ∧
      (∀ name ∉ givenNames (mangle ⟨reserved, s₁⟩ t).2.assignments, f name = name) ∧
      (mangle ⟨reserved, s₂⟩ t).1 = mapNames f (mangle ⟨reserved, s₁⟩ t).1 := by
  have h := parallel_of_seeds reserved s₁ s₂ t
  have h₁ := oneToOne_assignments ⟨reserved, s₁⟩ t
  have h₂ := oneToOne_assignments ⟨reserved, s₂⟩ t
  refine ⟨fun q => ?_, fun q => ?_, _, bijOn_respell h₁ h₂ (map_candidate_eq reserved s₁ s₂ t),
    fun _ => h₁.respell_of_not_given, h.tree_eq⟩
  · rw [nameAt?_ne_iff, nameAt?_ne_iff, h.changes_eq]
    rcases (Knowledge.of ⟨reserved, s₁⟩ t).changes _ t.positions q with _ | g | _ <;> simp [Change.map]
  · have hflag₁ := (tracks_mangle ⟨reserved, s₁⟩ t).flag_eq q "shorthand"
    have hflag₂ := (tracks_mangle ⟨reserved, s₂⟩ t).flag_eq q "shorthand"
    rw [h.changes_eq] at hflag₂
    simp only [flag_revise_map] at hflag₂
    exact hflag₁.trans hflag₂.symm

end Minifier.Mangle
