import Minifier.Proofs.Mangle.Declarations
import Minifier.Proofs.Mangle.Seed

/-!
# The plan of a mangling run

A run returns a plan with the tree: the names that it gave, and how many declarations and references it
renamed. The declarations are counted by their marks, which both passes leave, and the references by a counter of
the second. Here both counts are read off the two trees.

* A visit counts a reference exactly if it renames one (`references_visit`), so that the run counts every
  reference that it renamed (`references_run`).
* The marks that are left are those of the declarations that were renamed (`isSome_former_eq`), each once
  (`nodup_marks`).
* Every name that is changed is changed to a given one, by a declaration of the candidate that holds it or by a
  reference that sees one (`bears_of_renamed`), and every given name is borne by a declaration.

**Main result**: `plan_exact`.
-/

namespace Minifier.Mangle

open Node

variable {options : Options} {t : Node} {p : Progress} {k : Knowledge} {q : Path}

/-! ## What the counts mean -/

/-- The identifier stands where a parameter, a variable, a function or a class is declared. -/
def isDeclaration (t : Node) (o : Occurrence) : Bool :=
  o.node.kind == .identifier && (Scope.classify? (t.ancestors o.path)).isSome

/-- The identifier has another name in the other tree. -/
def isRenamed (t t' : Node) (o : Occurrence) : Bool := t'.nameAt? o.path != t.nameAt? o.path

/-- The name at the position was changed as the assignment says: its candidate had the old name, and it is
declared there or at a position that can be seen from there. -/
structure Bears (t t' : Node) (a : Assignment) (q : Path) : Prop where
  before : t.nameAt? q = some a.candidate.name
  after : t'.nameAt? q = some a.generated
  owned : Declares t q a.candidate.name a.candidate.scope ∨
    ∃ b ∈ Scope.visible (t.ancestors q), Declares t b.path a.candidate.name a.candidate.scope

/-! ## Marks -/

theorem nodup_marks_declare (k : Knowledge) (site : Site) (h : (p.marks.map Prod.fst).Nodup) :
    ((p.declare k site).marks.map Prod.fst).Nodup := by
  unfold Progress.declare
  split
  · exact Entries.nodup_keys_set h _ _
  · exact h

theorem nodup_marks_rename (k : Knowledge) (resolver : Scope.Resolver) (o : Occurrence)
    (h : (p.marks.map Prod.fst).Nodup) : ((p.rename k resolver o).marks.map Prod.fst).Nodup := by
  unfold Progress.rename
  split
  · split
    · exact nodup_marks_declare k _ h
    · exact h
  · split
    · exact h
    · split <;> exact h

theorem nodup_marks_visit (k : Knowledge) (resolver : Scope.Resolver) (q : Path)
    (h : (p.marks.map Prod.fst).Nodup) : ((p.visit k resolver q).marks.map Prod.fst).Nodup := by
  unfold Progress.visit
  split
  · split
    · rw [Progress.expand_eq]
      split <;> exact h
    · split
      · exact nodup_marks_rename k resolver _ h
      · exact h
  · exact h

/-- No declaration is marked twice. -/
theorem nodup_marks (k : Knowledge) (resolver : Scope.Resolver) (t : Node) (done : List Path) :
    ((done.foldl (Progress.visit k resolver) (declareAll k t)).marks.map Prod.fst).Nodup := by
  induction done using List.reverseRecOn with
  | nil =>
      unfold declareAll
      induction k.sites.filter (!·.direct) using List.reverseRecOn with
      | nil => exact List.nodup_nil
      | append_singleton l site ih =>
          rw [List.foldl_append]
          exact nodup_marks_declare k site ih
  | append_singleton done q ih =>
      rw [List.foldl_append]
      exact nodup_marks_visit k resolver q ih

/-! ## The counter -/

/-- The change gives an identifier another name. -/
def Change.isRenaming : Change → Bool
  | .renamed _ => true
  | .expanded => false

theorem references_declare (k : Knowledge) (site : Site) : (p.declare k site).references = p.references := by
  unfold Progress.declare
  split <;> rfl

/-- A visit counts a reference if it renames one. -/
theorem references_visit (resolver : Scope.Resolver)
    (hmarks : k.site? q = none → Entries.get? p.marks q = none) :
    (p.visit k resolver q).references
      = p.references + ((k.site? q).isNone && (p.effect? k resolver q).any Change.isRenaming).toNat := by
  unfold Progress.visit Progress.effect?
  cases p.tree.at? q with
  | none => simp
  | some node =>
      simp only [Option.bind_some]
      split
      · rw [Progress.expand_eq]
        split <;> simp [Change.isRenaming]
      · split
        · unfold Progress.rename
          cases hsite : k.site? q with
          | some site =>
              simp only [Option.isNone_some, Bool.false_and, Bool.toNat_false, Nat.add_zero]
              split
              · exact references_declare k site
              · rfl
          | none =>
              simp only [hmarks hsite, Option.isSome_none, Bool.false_eq_true, if_false, Option.isNone_none,
                Bool.true_and]
              cases p.target? k resolver ⟨q, node⟩ <;> rfl
        · simp

theorem references_declareAll (k : Knowledge) (t : Node) : (declareAll k t).references = 0 := by
  unfold declareAll
  induction k.sites.filter (!·.direct) using List.reverseRecOn with
  | nil => rfl
  | append_singleton l site ih =>
      rw [List.foldl_append]
      exact (references_declare k site).trans ih

/-- **The references that a run has counted.** -/
theorem references_run (hk : k.sites = sites t) (resolver : Scope.Resolver) {done rest : List Path}
    (h : t.positions = done ++ rest) :
    (done.foldl (Progress.visit k resolver) (declareAll k t)).references
      = done.countP fun q => (k.site? q).isNone && (k.effect resolver t q).any Change.isRenaming := by
  induction done using List.reverseRecOn generalizing rest with
  | nil => exact references_declareAll k t
  | append_singleton done q ih =>
      rw [List.append_assoc] at h
      have hmarks : k.site? q = none →
          Entries.get? (done.foldl (Progress.visit k resolver) (declareAll k t)).marks q = none := by
        intro hsite
        rw [(tracks_run hk resolver h).marks, Knowledge.former_of_no_site hsite]
      -- What the visit finds is what `effect` says, which looks at the run up to this position.
      have heffect : (done.foldl (Progress.visit k resolver) (declareAll k t)).effect? k resolver q
          = k.effect resolver t q := by
        rw [Knowledge.effect, Knowledge.before, metBefore_eq h]
      rw [List.foldl_append, List.countP_append, ← ih h]
      refine (references_visit resolver hmarks).trans ?_
      rw [heffect, List.countP_singleton]
      cases ((k.site? q).isNone && (k.effect resolver t q).any Change.isRenaming) <;> rfl

/-! ## Counted positions in the two trees -/

theorem isRenamed_iff {o : Occurrence} :
    isRenamed t (mangle options t).1 o = true ↔
      ∃ g, (Knowledge.of options t).changes ((Knowledge.of options t).effect Scope.resolve t)
        t.positions o.path = some (.renamed g) := by
  rw [isRenamed, bne_iff_ne, nameAt?_ne_iff]

/-- The site at a position is a declaration of its candidate. -/
theorem declares_of_site? {site : Site} (h : (Knowledge.of options t).site? q = some site) :
    Declares t q site.candidate.name site.candidate.scope := by
  obtain ⟨hmem, rfl⟩ := (Knowledge.site?_eq_some_iff (sites_of options t)).mp h
  obtain ⟨n, hmet, hsite⟩ := mem_sites_iff.mp hmem
  obtain ⟨hkind, hname, _, binding, hclassify, _⟩ := site?_eq_some_iff.mp hsite
  exact ⟨⟨n, hmet, hkind, hname⟩, binding, hclassify⟩

/-- Where a name was changed, the sites are the declarations. -/
theorem isSome_site?_iff {o : Occurrence} (ho : o ∈ t.occurrences)
    (hrenamed : isRenamed t (mangle options t).1 o = true) :
    ((Knowledge.of options t).site? o.path).isSome = true ↔ isDeclaration t o = true := by
  have hmet := mem_occurrences_iff.mp ho
  constructor
  · intro hsome
    obtain ⟨site, hsite⟩ := Option.isSome_iff_exists.mp hsome
    obtain ⟨⟨n, hn, hkind, _⟩, binding, hclassify⟩ := declares_of_site? hsite
    rw [hmet] at hn
    cases hn
    simp [isDeclaration, hkind, hclassify]
  · intro hdeclaration
    rw [isDeclaration, Bool.and_eq_true, beq_iff_eq] at hdeclaration
    obtain ⟨g, hg⟩ := isRenamed_iff.mp hrenamed
    obtain ⟨_, n, old, hn, _, hold⟩ := renamed_of_changes (sites_of options t) (fun _ hr => hr) hg
    rw [hmet] at hn
    cases hn
    exact Knowledge.isSome_site? (sites_of options t) hmet hdeclaration.1 hold hdeclaration.2

/-- What is marked in the end is a declaration with another name. -/
theorem isSome_former_eq {o : Occurrence} (ho : o ∈ t.occurrences) :
    ((Knowledge.of options t).former t.positions o.path).isSome
      = (isDeclaration t o && isRenamed t (mangle options t).1 o) := by
  rw [Bool.eq_iff_iff, Bool.and_eq_true]
  constructor
  · intro hformer
    obtain ⟨old, hold⟩ := Option.isSome_iff_exists.mp hformer
    have hrenamed : isRenamed t (mangle options t).1 o = true := isRenamed_iff.mpr (renamed_of_former hold)
    refine ⟨(isSome_site?_iff ho hrenamed).mp ?_, hrenamed⟩
    cases hsite : (Knowledge.of options t).site? o.path with
    | none =>
        rw [Knowledge.former_of_no_site hsite] at hold
        cases hold
    | some site => rfl
  · rintro ⟨hdeclaration, hrenamed⟩
    obtain ⟨site, hsite⟩ := Option.isSome_iff_exists.mp ((isSome_site?_iff ho hrenamed).mpr hdeclaration)
    obtain ⟨g, hg⟩ := isRenamed_iff.mp hrenamed
    rw [Knowledge.changes_of_site hsite] at hg
    obtain ⟨g', hgiven, _⟩ := Option.map_eq_some_iff.mp hg
    rw [Knowledge.former_of_site hsite, hgiven]
    rfl

/-- What is counted as a reference is another identifier with another name. -/
theorem isReference_eq {o : Occurrence} (ho : o ∈ t.occurrences) :
    (((Knowledge.of options t).site? o.path).isNone &&
        ((Knowledge.of options t).effect Scope.resolve t o.path).any Change.isRenaming)
      = (isNamed o.node && !isDeclaration t o && isRenamed t (mangle options t).1 o) := by
  have hmet := mem_occurrences_iff.mp ho
  have hmem : o.path ∈ t.positions := mem_positions_iff.mpr ⟨o.node, hmet⟩
  rw [Bool.eq_iff_iff, Bool.and_eq_true, Bool.and_eq_true, Bool.and_eq_true]
  constructor
  · rintro ⟨hnone, heffect⟩
    rw [Option.isNone_iff_eq_none] at hnone
    rcases hchange : (Knowledge.of options t).effect Scope.resolve t o.path with _ | g | _ <;>
      rw [hchange] at heffect
    · cases heffect
    · have hnamed := (isNamed_of_effect (sites_of options t) hmet hnone hchange).1
      have hrenamed : isRenamed t (mangle options t).1 o = true :=
        isRenamed_iff.mpr ⟨g, by rw [Knowledge.changes_of_no_site hnone hmem, hchange]⟩
      refine ⟨⟨hnamed, ?_⟩, hrenamed⟩
      rw [Bool.not_eq_true', ← Bool.not_eq_true, ← isSome_site?_iff ho hrenamed, hnone]
      exact Bool.false_ne_true
    · cases heffect
  · rintro ⟨⟨_, hother⟩, hrenamed⟩
    rw [Bool.not_eq_true', ← Bool.not_eq_true, ← isSome_site?_iff ho hrenamed, Bool.not_eq_true,
      Option.isSome_eq_false_iff, Option.isNone_iff_eq_none] at hother
    obtain ⟨g, hg⟩ := isRenamed_iff.mp hrenamed
    rw [Knowledge.changes_of_no_site hother hmem] at hg
    rw [hother, hg]
    exact ⟨rfl, rfl⟩

theorem declarations_eq (options : Options) (t : Node) :
    (mangle options t).2.declarations
      = t.occurrences.countP fun o => isDeclaration t o && isRenamed t (mangle options t).1 o := by
  have htracks := tracks_mangle options t
  let marks := (referAll (Knowledge.of options t) Scope.resolve (declareAll (Knowledge.of options t) t)).marks
  have hnodup : (marks.map Prod.fst).Nodup := nodup_marks _ Scope.resolve t _
  have hmem : ∀ q, q ∈ marks.map Prod.fst ↔
      q ∈ t.positions.filter fun q => ((Knowledge.of options t).former t.positions q).isSome := by
    intro q
    rw [List.mem_filter, ← htracks.marks q, Option.isSome_iff_ne_none, ne_eq, Entries.get?_eq_none_iff,
      not_not]
    refine (and_iff_right_of_imp fun hmarked => ?_).symm
    by_contra hunmet
    have hnone := htracks.marks q
    rw [Knowledge.former_of_no_site (site?_of_not_mem_positions hunmet), Entries.get?_eq_none_iff] at hnone
    exact hnone hmarked
  -- Neither list has a position twice, so they are as long as each other.
  have hperm := (List.perm_ext_iff_of_nodup hnodup (t.nodup_positions.filter _)).mpr hmem
  calc (mangle options t).2.declarations
      = (marks.map Prod.fst).length := (List.length_map _).symm
    _ = t.positions.countP fun q => ((Knowledge.of options t).former t.positions q).isSome := by
        rw [hperm.length_eq, List.countP_eq_length_filter]
    _ = t.occurrences.countP fun o => ((Knowledge.of options t).former t.positions o.path).isSome :=
        List.countP_map
    _ = _ := List.countP_congr fun o ho => by rw [isSome_former_eq ho]

theorem references_eq (options : Options) (t : Node) :
    (mangle options t).2.references
      = t.occurrences.countP fun o =>
          isNamed o.node && !isDeclaration t o && isRenamed t (mangle options t).1 o := by
  have hpositions := (tracks_declareAll (sites_of options t)
    ((Knowledge.of options t).effect Scope.resolve t)).positions_eq
  have hrun := references_run (sites_of options t) Scope.resolve (List.append_nil t.positions).symm
  calc (mangle options t).2.references
      = _ := by
        show (referAll _ _ _).references = _
        unfold referAll
        rw [show (declareAll (Knowledge.of options t) t).tree.occurrences.map (·.path) = t.positions from
          hpositions]
        exact hrun
    _ = _ := List.countP_map
    _ = _ := List.countP_congr fun o ho => by rw [Function.comp_apply, isReference_eq ho]

/-! ## Given names -/

/-- A name that is changed is changed to one that was given to a candidate of its old name, which is declared
there or in sight. -/
theorem bears_of_renamed (h : (mangle options t).1.nameAt? q ≠ t.nameAt? q) :
    ∃ a ∈ (mangle options t).2.assignments, Bears t (mangle options t).1 a q := by
  obtain ⟨g, hg⟩ := (nameAt?_ne_iff options t q).mp h
  obtain ⟨_, n, old, hmet, _, hold⟩ := renamed_of_changes (sites_of options t) (fun _ hr => hr) hg
  have hafter : (mangle options t).1.nameAt? q = some g := by
    rw [nameAt?_mangle (at?_of_met? hmet), hg, name?_revise_renamed]
  cases hsite : (Knowledge.of options t).site? q with
  | some site =>
      have hdeclares := declares_of_site? hsite
      rw [Knowledge.changes_of_site hsite] at hg
      obtain ⟨g', hgiven, heq⟩ := Option.map_eq_some_iff.mp hg
      cases heq
      obtain ⟨site', hsite', _, hgenerated⟩ := given?_eq_some_iff.mp hgiven
      rw [hsite] at hsite'
      cases hsite'
      exact ⟨⟨site.candidate, g⟩, exists_of_generated? hgenerated, hdeclares.nameAt?, hafter, .inl hdeclares⟩
  | none =>
      rw [Knowledge.changes_of_no_site hsite (mem_positions_iff.mpr ⟨n, hmet⟩)] at hg
      obtain ⟨_, b, hvisible, site, hbinding, hcandidate, hgenerated⟩ :=
        binding_of_effect (sites_of options t) hmet hsite hold hg
      refine ⟨⟨site.candidate, g⟩, exists_of_generated? hgenerated, ?_, hafter,
        .inr ⟨b, hvisible, declares_of_site? hbinding⟩⟩
      rw [Node.nameAt?, at?_of_met? hmet, hcandidate]
      exact hold

/-- Every given name is borne by a declaration. -/
theorem exists_bears {a : Assignment} (h : a ∈ (mangle options t).2.assignments) :
    ∃ q, Declares t q a.candidate.name a.candidate.scope ∧ Bears t (mangle options t).1 a q := by
  obtain ⟨hcandidate, hname⟩ := candidate_of_mem_assign h
  obtain ⟨site, hmem, hsite⟩ := List.mem_map.mp (List.mem_eraseDups.mp hcandidate)
  have hdeclares : Declares t site.path a.candidate.name a.candidate.scope := by
    rw [← hsite]
    exact declares_of_site? ((Knowledge.site?_eq_some_iff (sites_of options t)).mpr ⟨hmem, rfl⟩)
  obtain ⟨generated, hgenerated, hafter⟩ := hdeclares.exists_generated hname
  have hgiven : generated? (mangle options t).2.assignments a.candidate = some a.generated :=
    (oneToOne_assignments options t).generated?_eq_some_iff.mpr h
  have hsame : generated = a.generated := Option.some.inj (hgenerated.symm.trans hgiven)
  exact ⟨site.path, hdeclares, hdeclares.nameAt?, hsame ▸ hafter, .inl hdeclares⟩

/-- What bears a given name had another one. -/
theorem Bears.renamed {a : Assignment} (h : Bears t (mangle options t).1 a q)
    (ha : a ∈ (mangle options t).2.assignments) : (mangle options t).1.nameAt? q ≠ t.nameAt? q := by
  obtain ⟨r, ⟨⟨n, hmet, hkind, hname⟩, _⟩, _⟩ := exists_bears ha
  rw [h.before, h.after, ne_eq, Option.some.injEq]
  intro heq
  have hgiven : generated? (mangle options t).2.assignments a.candidate = some a.generated :=
    (oneToOne_assignments options t).generated?_eq_some_iff.mpr ha
  rw [heq] at hgiven
  exact generated?_not_mem_census hgiven (mem_census hmet (by simp [isNamed, hkind]) hname)

/-- **The plan of a run is exact.** It counts the declarations that have another name in the mangled tree,
and the other identifiers that have. The new names are the given ones, no two of which are the same. Where
a name is new, the plan has the old one and the scope that owns it, and every name that it gives is borne by a
declaration. -/
theorem plan_exact (options : Options) (t : Node) :
    (mangle options t).2.declarations
        = t.occurrences.countP (fun o => isDeclaration t o && isRenamed t (mangle options t).1 o) ∧
      (mangle options t).2.references
        = t.occurrences.countP (fun o =>
            isNamed o.node && !isDeclaration t o && isRenamed t (mangle options t).1 o) ∧
      {g | ∃ q, (mangle options t).1.nameAt? q = some g ∧ (mangle options t).1.nameAt? q ≠ t.nameAt? q}
        = givenNames (mangle options t).2.assignments ∧
      ((mangle options t).2.assignments.map (·.generated)).Nodup ∧
      (∀ q, (mangle options t).1.nameAt? q ≠ t.nameAt? q ↔
        ∃ a ∈ (mangle options t).2.assignments, Bears t (mangle options t).1 a q) ∧
      ∀ a ∈ (mangle options t).2.assignments,
        ∃ q, Declares t q a.candidate.name a.candidate.scope ∧ Bears t (mangle options t).1 a q := by
  refine ⟨declarations_eq options t, references_eq options t, ?_, (oneToOne_assignments options t).generated,
    fun q => ⟨bears_of_renamed, fun ⟨a, ha, hbears⟩ => hbears.renamed ha⟩, fun a ha => exists_bears ha⟩
  ext g
  constructor
  · rintro ⟨q, hafter, hrenamed⟩
    obtain ⟨a, ha, hbears⟩ := bears_of_renamed hrenamed
    rw [hbears.after] at hafter
    cases hafter
    exact ⟨a.candidate, ha⟩
  · rintro ⟨c, ha⟩
    obtain ⟨q, _, hbears⟩ := exists_bears ha
    exact ⟨q, hbears.after, hbears.renamed ha⟩

/-- In `var x; function f(x) { x; }` there are three declarations and one reference, and all of them are renamed.
The parameter and what refers to it bear the name that the plan has for the `x` of the function. -/
theorem plan_exact_shadowing :
    (mangle {} shadowing).2
        = ⟨[⟨⟨"x", []⟩, "L"⟩, ⟨⟨"f", []⟩, "o"⟩, ⟨⟨"x", [⟨"body", some 1⟩]⟩, "h"⟩], 3, 1⟩ ∧
      shadowing.occurrences.countP
        (fun o => isDeclaration shadowing o && isRenamed shadowing (mangle {} shadowing).1 o) = 3 ∧
      shadowing.occurrences.countP (fun o => isNamed o.node && !isDeclaration shadowing o &&
        isRenamed shadowing (mangle {} shadowing).1 o) = 1 ∧
      "h" ∈ {g | ∃ q, (mangle {} shadowing).1.nameAt? q = some g ∧
        (mangle {} shadowing).1.nameAt? q ≠ shadowing.nameAt? q} ∧
      ∃ q, Declares shadowing q "x" [⟨"body", some 1⟩] ∧
        Bears shadowing (mangle {} shadowing).1 ⟨⟨"x", [⟨"body", some 1⟩]⟩, "h"⟩ q := by
  have hplan : (mangle {} shadowing).2
      = ⟨[⟨⟨"x", []⟩, "L"⟩, ⟨⟨"f", []⟩, "o"⟩, ⟨⟨"x", [⟨"body", some 1⟩]⟩, "h"⟩], 3, 1⟩ := by
    unfold mangle mangleWith
    rw [Knowledge.of_default]
    decide +kernel
  have hmem : ⟨⟨"x", [⟨"body", some 1⟩]⟩, "h"⟩ ∈ (mangle {} shadowing).2.assignments := by
    rw [hplan]
    decide
  obtain ⟨hdeclarations, hreferences, hnames, _, _, hdeclared⟩ := plan_exact {} shadowing
  refine ⟨hplan, ?_, ?_, ?_, hdeclared _ hmem⟩
  · rw [← hdeclarations, hplan]
  · rw [← hreferences, hplan]
  · rw [hnames]
    exact ⟨_, hmem⟩

end Minifier.Mangle
