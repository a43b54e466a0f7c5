import Mathlib.Data.List.Nodup
import Mathlib.Data.Nat.Nth
import Minifier.Proofs.Mangle.References

/-!
# The supply of names

A generator has infinitely many symbols, and only finitely many names are to be avoided. So a search that
may look at one symbol more than there are names to avoid always ends (`exists_free`), and it ends at the
first symbol that is free (`find?_eq_nextFit`). Each search goes on behind the last, and no symbol comes up
twice, so that the names that were given before do not stand in its way (`assignFrom_eq`). The names of
candidates are names of identifiers that a traversal meets and are avoided as such (`name_mem_census`). What
is left to avoid does not change during the run, and the candidates get the free symbols in order, none left
out: the candidate with number `k` gets the free symbol with number `k` (`assignments_eq`).
-/

namespace Minifier

namespace Naming

/-! ## Letters -/

/-- Letters start identifiers, and go on with them. -/
theorem isStart_of_mem_letters : ∀ c ∈ letters, Name.isStart c = true ∧ Name.isContinue c = true := by
  have hall : letters.all (fun c => Name.isStart c && Name.isContinue c) = true := by decide +kernel
  intro c hc
  exact Bool.and_eq_true_iff.mp (List.all_eq_true.mp hall c hc)

theorem isIdentifier_nth (seed : UInt64) (n : Nat) :
    Name.isIdentifier ((Generator.ofSeed seed).nth n) = true := by
  have hletters : ∀ c ∈ spell (alphabet seed) n, c ∈ letters := by
    intro c hc
    exact (alphabet_perm seed).mem_iff.mp (mem_of_mem_spell hc)
  have hne : spell (alphabet seed) n ≠ [] := by
    apply spell_ne_nil
    rw [length_alphabet]
    omega
  unfold Name.isIdentifier Generator.nth
  rw [Generator.alphabet_ofSeed, String.toList_ofList]
  cases hword : spell (alphabet seed) n with
  | nil => exact absurd hword hne
  | cons first rest =>
      rw [hword] at hletters
      rw [Bool.and_eq_true, List.all_eq_true]
      refine ⟨(isStart_of_mem_letters _ (hletters first List.mem_cons_self)).1, ?_⟩
      intro c hc
      exact (isStart_of_mem_letters _ (hletters c (List.mem_cons_of_mem _ hc))).2

namespace Generator

/-! ## Searching -/

/-- Among one more symbols than a list has names, one is not in the list. -/
theorem exists_free {g : Generator} (hg : g.Sound) (names : List String) (start : Nat) :
    ∃ n, start ≤ n ∧ n < start + (names.length + 1) ∧ g.nth n ∉ names := by
  by_contra hnone
  have hall : ∀ n, start ≤ n → n < start + (names.length + 1) → g.nth n ∈ names := by
    intro n hle hlt
    by_contra hn
    exact hnone ⟨n, hle, hlt, hn⟩
  have hnodup : ((List.range' start (names.length + 1)).map g.nth).Nodup :=
    List.Nodup.map (fun _ _ h => nth_injective hg h) List.nodup_range'
  have hsubset : (List.range' start (names.length + 1)).map g.nth ⊆ names := by
    intro s hs
    obtain ⟨n, hn, rfl⟩ := List.mem_map.mp hs
    obtain ⟨hle, hlt⟩ := List.mem_range'_1.mp hn
    exact hall n hle hlt
  have hlength := (List.subperm_of_subset hnodup hsubset).length_le
  rw [List.length_map, List.length_range'] at hlength
  omega

/-- The symbol with the number has the property. -/
def Fits (g : Generator) (p : String → Bool) (n : Nat) : Prop := p (g.nth n) = true

instance (g : Generator) (p : String → Bool) : DecidablePred (g.Fits p) :=
  fun _ => inferInstanceAs (Decidable (_ = true))

/-- The number of the first symbol behind those that were used that has the property. -/
noncomputable def nextFit (g : Generator) (p : String → Bool) : Nat :=
  Nat.nth (g.Fits p) (Nat.count (g.Fits p) g.used)

theorem nextFit_skip {g : Generator} {p : String → Bool} (h : ¬ g.Fits p g.used) :
    g.skip.nextFit p = g.nextFit p := by
  have hcount : Nat.count (g.Fits p) (g.used + 1) = Nat.count (g.Fits p) g.used :=
    Nat.count_succ_eq_count_iff.mpr h
  show Nat.nth (g.Fits p) (Nat.count (g.Fits p) (g.used + 1)) = _
  rw [hcount]
  rfl

/-- A search looks only at symbols that were not used. -/
theorem find?_congr {g : Generator} {p p' : String → Bool} {tries : Nat}
    (h : ∀ n, g.used ≤ n → p (g.nth n) = p' (g.nth n)) : g.find? p tries = g.find? p' tries := by
  induction tries generalizing g with
  | zero => rfl
  | succ tries ih =>
      have hrest : g.skip.find? p tries = g.skip.find? p' tries :=
        ih fun n hn => h n (Nat.le_of_succ_le hn)
      rw [find?, find?, hrest, show p g.symbol = p' g.symbol from h g.used (Nat.le_refl _)]

/-- **A search ends at the first symbol that has the property**, if it looks far enough. -/
theorem find?_eq_nextFit {g : Generator} {p : String → Bool} {tries : Nat}
    (h : ∃ n, g.used ≤ n ∧ n < g.used + tries ∧ g.Fits p n) :
    g.find? p tries = some (g.nth (g.nextFit p), { g with used := g.nextFit p + 1 }) := by
  induction tries generalizing g with
  | zero =>
      obtain ⟨n, hle, hlt, _⟩ := h
      omega
  | succ tries ih =>
      rw [find?]
      by_cases hp : g.Fits p g.used
      · have hfirst : g.nextFit p = g.used := Nat.nth_count hp
        rw [hfirst]
        exact if_pos hp
      · obtain ⟨n, hle, hlt, hn⟩ := h
        have hne : n ≠ g.used := by
          rintro rfl
          exact hp hn
        have hrest := ih (g := g.skip)
          ⟨n, show g.used + 1 ≤ n by omega, show n < g.used + 1 + tries by omega, hn⟩
        rw [nextFit_skip hp] at hrest
        exact (if_neg hp).trans hrest

end Generator

end Naming

namespace Mangle

open Naming Node

/-! ## Giving names -/

/-- The symbol may be given: it is neither reserved nor avoided. -/
def isAvailable (avoided : List String) (s : String) : Bool := !Name.isReserved s && !avoided.contains s

theorem isAvailable_iff {avoided : List String} {s : String} :
    isAvailable avoided s = true ↔
      s ∉ Name.reservedWords ++ Name.protectedGlobals ++ avoided := by
  simp [isAvailable, Name.isReserved, and_assoc]

theorem exists_available {g : Generator} (hg : g.Sound) (avoided : List String) (start : Nat) :
    ∃ n, start ≤ n ∧
      n < start + (Name.reservedWords.length + Name.protectedGlobals.length + avoided.length + 1) ∧
      g.Fits (isAvailable avoided) n := by
  obtain ⟨n, hle, hlt, hn⟩ :=
    g.exists_free hg (Name.reservedWords ++ Name.protectedGlobals ++ avoided) start
  refine ⟨n, hle, ?_, isAvailable_iff.mpr hn⟩
  rw [List.length_append, List.length_append] at hlt
  exact hlt

theorem infinite_available {g : Generator} (hg : g.Sound) (avoided : List String) :
    {n | g.Fits (isAvailable avoided) n}.Infinite := by
  rw [Set.infinite_iff_exists_gt]
  intro start
  obtain ⟨n, hle, _, hn⟩ := exists_available hg avoided (start + 1)
  exact ⟨n, hn, hle⟩

namespace Taken

/-- The names that are taken from the first candidate to the last. -/
def fixed (taken : Taken) : List String := taken.excluded ++ taken.occupied ++ taken.originals

/-- What was given so far are symbols that the generator has gone past. -/
def Passed (taken : Taken) (g : Generator) : Prop := ∀ s ∈ taken.used, ∃ n < g.used, s = g.nth n

/-- **Names that were given do not come up again**, so that of the symbols still to come the taken ones are
those that were taken from the first. -/
theorem isAvailable_fixed {taken : Taken} {g : Generator} (hg : g.Sound) (hpassed : taken.Passed g)
    {n : Nat} (hn : g.used ≤ n) :
    (!Name.isReserved (g.nth n) && !taken.contains (g.nth n)) = isAvailable taken.fixed (g.nth n) := by
  have hunused : taken.used.contains (g.nth n) = false := by
    rw [List.contains_eq_mem, decide_eq_false_iff_not]
    intro hmem
    obtain ⟨m, hm, heq⟩ := hpassed _ hmem
    have := Generator.nth_injective hg heq
    omega
  have hcontains : taken.contains (g.nth n) = taken.fixed.contains (g.nth n) := by
    simp only [contains, fixed, hunused, Bool.or_false, List.contains_eq_mem, List.mem_append,
      Bool.decide_or]
  rw [isAvailable, hcontains]

/-- A search ends, at the first symbol that is not taken from the first. -/
theorem available?_eq {taken : Taken} {g : Generator} (hg : g.Sound) (hpassed : taken.Passed g) :
    g.available? taken.contains taken.tries
      = some (g.nth (g.nextFit (isAvailable taken.fixed)),
          { g with used := g.nextFit (isAvailable taken.fixed) + 1 }) := by
  unfold Generator.available?
  rw [Generator.find?_congr fun n hn => isAvailable_fixed hg hpassed hn]
  refine Generator.find?_eq_nextFit ?_
  obtain ⟨n, hle, hlt, hn⟩ := exists_available hg taken.fixed g.used
  refine ⟨n, hle, ?_, hn⟩
  simp only [fixed, List.length_append] at hlt
  unfold tries
  omega

theorem Passed.give {taken : Taken} {g : Generator} (h : taken.Passed g) {n : Nat} (hn : g.used ≤ n) :
    (taken.give (g.nth n)).Passed { g with used := n + 1 } := by
  intro s hs
  rcases List.mem_cons.mp hs with rfl | hs
  · exact ⟨n, Nat.lt_succ_self n, rfl⟩
  · obtain ⟨m, hm, heq⟩ := h s hs
    exact ⟨m, Nat.lt_succ_of_lt (Nat.lt_of_lt_of_le hm hn), heq⟩

end Taken

/-- **Candidates are given the available symbols in order**, none of them left out. -/
theorem assignFrom_eq {taken : Taken} {g : Generator} (hg : g.Sound) (hpassed : taken.Passed g)
    (candidates : List Candidate) :
    assignFrom taken g candidates =
      ((candidates.filter fun c => !taken.excluded.contains c.name).zipIdx
        (Nat.count (g.Fits (isAvailable taken.fixed)) g.used)).map fun (c, k) =>
          ⟨c, g.nth (Nat.nth (g.Fits (isAvailable taken.fixed)) k)⟩ := by
  induction candidates generalizing taken g with
  | nil => rfl
  | cons candidate rest ih =>
      rw [assignFrom, List.filter_cons]
      cases hexcluded : taken.excluded.contains candidate.name with
      | true => exact ih hg hpassed
      | false =>
          rw [if_neg Bool.false_ne_true, Taken.available?_eq hg hpassed, Bool.not_false, if_pos rfl,
            List.zipIdx_cons, List.map_cons]
          refine congrArg (List.cons _) ?_
          -- The next search starts behind the symbol that was taken, with one more counted.
          have hcount : Nat.count (g.Fits (isAvailable taken.fixed))
              (g.nextFit (isAvailable taken.fixed) + 1)
              = Nat.count (g.Fits (isAvailable taken.fixed)) g.used + 1 :=
            Nat.count_nth_succ_of_infinite (infinite_available hg taken.fixed) _
          have hle : g.used ≤ g.nextFit (isAvailable taken.fixed) :=
            Nat.le_nth_count (infinite_available hg taken.fixed) g.used
          rw [← hcount]
          exact ih ⟨hg.pos, hg.nodup⟩ (hpassed.give hle)

section

variable {options : Options} {census : List String} {candidates : List Candidate}

theorem assign_eq (options : Options) (census : List String) (candidates : List Candidate) :
    assign options census candidates =
      (candidates.filter fun c => !options.reserved.contains c.name).zipIdx.map fun (c, k) =>
        ⟨c, (Generator.ofSeed options.seed).nth (Nat.nth ((Generator.ofSeed options.seed).Fits
          (isAvailable (Taken.of options census candidates).fixed)) k)⟩ := by
  have hpassed : (Taken.of options census candidates).Passed (.ofSeed options.seed) :=
    fun s hs => absurd hs List.not_mem_nil
  have hassign := assignFrom_eq (Generator.sound_ofSeed options.seed) hpassed candidates
  rw [show (Generator.ofSeed options.seed).used = 0 from rfl, Nat.count_zero] at hassign
  exact hassign

theorem candidate_of_mem_assign {a : Assignment} (h : a ∈ assign options census candidates) :
    a.candidate ∈ candidates ∧ a.candidate.name ∉ options.reserved := by
  rw [assign_eq] at h
  obtain ⟨⟨c, k⟩, hmem, rfl⟩ := List.mem_map.mp h
  have hc := List.mem_filter.mp (List.fst_mem_of_mem_zipIdx hmem)
  exact ⟨hc.1, by simpa using hc.2⟩

/-- Every candidate that is not excluded is given a name. -/
theorem exists_generated? (options : Options) (census : List String) {c : Candidate}
    (hc : c ∈ candidates) (hname : c.name ∉ options.reserved) :
    ∃ name, generated? (assign options census candidates) c = some name := by
  have hkept : c ∈ candidates.filter fun c => !options.reserved.contains c.name :=
    List.mem_filter.mpr ⟨hc, by simpa using hname⟩
  obtain ⟨k, hk⟩ := List.mem_iff_getElem?.mp hkept
  have hassigned : ∃ a ∈ assign options census candidates, a.candidate = c := by
    rw [assign_eq]
    exact ⟨_, List.mem_map_of_mem (List.mk_mem_zipIdx_iff_getElem?.mpr hk), rfl⟩
  obtain ⟨a, ha, rfl⟩ := hassigned
  have hfound : ((assign options census candidates).find? (·.candidate == a.candidate)).isSome := by
    rw [List.find?_isSome]
    exact ⟨a, ha, by simp⟩
  obtain ⟨b, hb⟩ := Option.isSome_iff_exists.mp hfound
  exact ⟨b.generated, by rw [generated?, hb]; rfl⟩

/-- An excluded candidate is given none. -/
theorem generated?_of_excluded {c : Candidate} (hname : c.name ∈ options.reserved) :
    generated? (assign options census candidates) c = none := by
  cases h : generated? (assign options census candidates) c with
  | none => rfl
  | some name => exact absurd hname (candidate_of_mem_assign (exists_of_generated? h)).2

end

/-! ## What is given and what is kept -/

variable {options : Options} {t : Node}

/-- The names of candidates are names of identifiers that a traversal meets. -/
theorem name_mem_census {c : Candidate} (hc : c ∈ candidates (sites t)) : c.name ∈ census t := by
  obtain ⟨site, hsite, rfl⟩ := List.mem_map.mp (List.mem_eraseDups.mp hc)
  obtain ⟨n, hmet, hn⟩ := mem_sites_iff.mp hsite
  obtain ⟨hkind, hname, _⟩ := site?_eq_some_iff.mp hn
  exact mem_census hmet (Bool.or_eq_true_iff.mpr (.inl (beq_iff_eq.mpr hkind))) hname

/-- The name is free to be given: not reserved, not excluded, and not the name of an identifier that a
traversal meets. -/
def IsFree (options : Options) (t : Node) (s : String) : Prop :=
  Name.isReserved s = false ∧ s ∉ options.reserved ∧
    ∀ o ∈ t.occurrences, isNamed o.node = true → o.node.name? ≠ some s

theorem isFree_iff {s : String} :
    IsFree options t s ↔ Name.isReserved s = false ∧ s ∉ options.reserved ∧ s ∉ census t := by
  simp only [IsFree, mem_census_iff, not_exists, not_and]

/-- The free symbol with a number, among those of the seed. -/
noncomputable def supply (options : Options) (t : Node) (k : Nat) : String :=
  (Generator.ofSeed options.seed).nth
    (Nat.nth (fun n => IsFree options t ((Generator.ofSeed options.seed).nth n)) k)

theorem fits_eq_isFree (options : Options) (t : Node) :
    (Generator.ofSeed options.seed).Fits
        (isAvailable (Taken.of options (census t) (candidates (sites t))).fixed)
      = fun n => IsFree options t ((Generator.ofSeed options.seed).nth n) := by
  funext n
  have hnames : ∀ s, s ∈ (candidates (sites t)).map (·.name) → s ∈ census t := by
    intro s hs
    obtain ⟨c, hc, rfl⟩ := List.mem_map.mp hs
    exact name_mem_census hc
  have hfixed : (Generator.ofSeed options.seed).nth n ∈
      (Taken.of options (census t) (candidates (sites t))).fixed ↔
        (Generator.ofSeed options.seed).nth n ∈ options.reserved ∨
        (Generator.ofSeed options.seed).nth n ∈ census t := by
    rw [Taken.fixed, List.mem_append, List.mem_append]
    exact or_iff_left_of_imp fun h => .inr (hnames _ h)
  simp only [Generator.Fits, isAvailable, isFree_iff, Bool.and_eq_true, Bool.not_eq_true',
    List.contains_eq_mem, decide_eq_false_iff_not, hfixed, not_or]

theorem infinite_isFree (options : Options) (t : Node) :
    {n | IsFree options t ((Generator.ofSeed options.seed).nth n)}.Infinite := by
  rw [← fits_eq_isFree]
  exact infinite_available (Generator.sound_ofSeed options.seed) _

theorem assignments_eq (options : Options) (t : Node) :
    (mangle options t).2.assignments =
      ((candidates (sites t)).filter fun c => !options.reserved.contains c.name).zipIdx.map
        fun (c, k) => ⟨c, supply options t k⟩ := by
  have hassign := assign_eq options (census t) (candidates (sites t))
  rw [fits_eq_isFree] at hassign
  exact hassign

/-- An identifier with an excluded name keeps it. -/
theorem nameAt?_of_excluded {q : Path} {n : Node} {name : String} (hq : t.at? q = some n)
    (hn : isNamed n = true) (hname : n.name? = some name) (hexcluded : name ∈ options.reserved) :
    (mangle options t).1.nameAt? q = some name := by
  by_cases hmem : q ∈ t.positions
  · obtain ⟨m, hmet⟩ := mem_positions_iff.mp hmem
    obtain rfl := eq_of_met? hmet hq
    rw [nameAt?_mangle hq]
    cases hsite : (Knowledge.of options t).site? q with
    | some site =>
        -- The candidate has the same name, and so it was given none.
        obtain ⟨_, hcandidate⟩ := name?_of_site (b := ⟨q, n⟩) (sites_of options t) hq hsite
        have hsame : site.candidate.name = name := Option.some.inj (hcandidate.symm.trans hname)
        have hnone : generated? (Knowledge.of options t).assignments site.candidate = none :=
          generated?_of_excluded (hsame ▸ hexcluded)
        rw [Knowledge.changes_of_site hsite, Knowledge.given?_of_site hsite (by simp [hmem]), hnone]
        exact hname
    | none =>
        -- No candidate of this name was given one, and so the visit does not even look.
        have hunassigned : (Knowledge.of options t).isAssigned name = false := by
          rw [Bool.eq_false_iff]
          intro hassigned
          obtain ⟨a, ha, hsame⟩ := List.any_eq_true.mp hassigned
          have hsame : a.candidate.name = name := by simpa using hsame
          exact (candidate_of_mem_assign ha).2 (hsame ▸ hexcluded)
        obtain ⟨_, _, _, heffect⟩ :=
          effect_of_isNamed (sites_of options t) Scope.resolve hmet hsite hn hname
        rw [hunassigned, Bool.false_and, if_neg Bool.false_ne_true] at heffect
        rw [Knowledge.changes_of_no_site hsite hmem, heffect]
        exact hname
  · rw [nameAt?_of_not_mem_positions hq hmem, hname]

/-- **Who gets which name.** The free symbols never run out. The candidates that are not excluded are given
them in order: the one with number `k` is given the free symbol with number `k`. Excluded candidates are
given none. So no name is given twice, each can be declared and is free, and an identifier with an
excluded name keeps it. -/
theorem candidates_take_supply (options : Options) (t : Node) :
    {n | IsFree options t ((Generator.ofSeed options.seed).nth n)}.Infinite ∧
    (mangle options t).2.assignments =
      ((candidates (sites t)).filter fun c => !options.reserved.contains c.name).zipIdx.map
        (fun (c, k) => ⟨c, supply options t k⟩) ∧
    (∀ c ∈ candidates (sites t), c.name ∈ options.reserved →
      generated? (mangle options t).2.assignments c = none) ∧
    ((mangle options t).2.assignments.map (·.generated)).Nodup ∧
    (∀ a ∈ (mangle options t).2.assignments,
      Name.isBinding a.generated = true ∧ IsFree options t a.generated) ∧
    (∀ p n name, t.at? p = some n → isNamed n = true → n.name? = some name →
      name ∈ options.reserved → (mangle options t).1.nameAt? p = some name) := by
  refine ⟨infinite_isFree options t, assignments_eq options t,
    fun c _ hexcluded => generated?_of_excluded hexcluded,
    nodup_assignFrom _ _ _, fun a ha => ?_,
    fun p n name hp hn hname hexcluded => nameAt?_of_excluded hp hn hname hexcluded⟩
  rw [assignments_eq] at ha
  obtain ⟨⟨c, k⟩, _, rfl⟩ := List.mem_map.mp ha
  have hfree : IsFree options t (supply options t k) :=
    Nat.nth_mem_of_infinite (infinite_isFree options t) k
  refine ⟨?_, hfree⟩
  have hword : Name.reservedWords.contains (supply options t k) = false :=
    (Bool.or_eq_false_iff.mp hfree.1).1
  rw [Name.isBinding, hword, Bool.not_false, Bool.and_true]
  exact isIdentifier_nth options.seed _

/-- In `var x; function f(x) { x; }` the name `f` is excluded, and `x` is not. -/
theorem candidates_take_supply_shadowing :
    (⟨"f", []⟩ ∈ candidates (sites shadowing) ∧
      generated? (mangle { reserved := ["f"] } shadowing).2.assignments ⟨"f", []⟩ = none ∧
      (mangle { reserved := ["f"] } shadowing).1.nameAt? [⟨"body", some 1⟩, ⟨"id", none⟩] = some "f") ∧
    (⟨"x", []⟩ ∈ candidates (sites shadowing) ∧
      ∃ a ∈ (mangle { reserved := ["f"] } shadowing).2.assignments, a.candidate = ⟨"x", []⟩ ∧
        Name.isBinding a.generated = true ∧ IsFree { reserved := ["f"] } shadowing a.generated) := by
  obtain ⟨_, _, hnone, _, hvalid, hkeeps⟩ := candidates_take_supply { reserved := ["f"] } shadowing
  have hf : ⟨"f", []⟩ ∈ candidates (sites shadowing) := by decide +kernel
  have hx : ⟨"x", []⟩ ∈ candidates (sites shadowing) := by decide +kernel
  refine ⟨⟨hf, hnone _ hf (by decide), hkeeps _ _ _ rfl rfl rfl (by decide)⟩, hx, ?_⟩
  obtain ⟨name, hname⟩ := exists_generated? { reserved := ["f"] } (census shadowing) hx (by decide)
  have ha := exists_of_generated? hname
  exact ⟨_, ha, rfl, hvalid _ ha⟩

end Mangle

end Minifier
