import Minifier.Proofs.Mangle.Seed
import Minifier.Proofs.Mangle.Declarations

/-!
# The interface of a module

Other modules know a module by names: those that it exports and those that it imports from them. A
specifier spells such a name beside the local one, and mangling leaves it alone. An exported
declaration has one identifier for both, and mangling renames it like any other declaration.

* The names are enumerated by functions from an occurrence to the parts of it that hold a name
  (`importedParts`, `renamedParts`, `declaredParts`). In the mangled tree they enumerate the same
  positions (`Enumerates.namesOf_eq_iff`).
* So the interface is kept iff every name that an exported declaration binds is excluded
  (`interface_kept_iff`).
-/

namespace Minifier

open Node Occurrence

/-- What is read off similar occurrences. -/
theorem Thinned.filterMap_eq {β : Type} {l l' : List Occurrence} (h : Thinned none l l')
    {f g : Occurrence → Option β} (hkeep : ∀ b ∈ l, ∀ b' ∈ l', b.Similar none b' → g b' = f b) :
    l'.filterMap g = l.filterMap f := by
  induction h with
  | nil => rfl
  | @keep b b' l l' h _ ih =>
      have hrest := ih fun c hc c' hc' =>
        hkeep c (List.mem_cons_of_mem _ hc) c' (List.mem_cons_of_mem _ hc')
      rw [List.filterMap_cons, List.filterMap_cons, hrest,
        hkeep b List.mem_cons_self b' List.mem_cons_self h]
  | drop h _ _ => exact absurd h (not_concealed_none _)

/-! ## Bindings are met -/

/-- A traversal meets the identifiers of the patterns that it meets. -/
theorem mem_below_of_mem_bindings {o b : Occurrence} (h : b ∈ o.bindings) : b ∈ o.below := by
  induction o using bindings_induction with
  | step o ih =>
      rw [bindings_eq] at h
      split at h
      · rw [List.mem_singleton.mp h]
        exact mem_below_self o
      · obtain ⟨x, hx, hb⟩ := List.mem_flatMap.mp h
        exact mem_below_trans (mem_below_of_mem_patternParts hx) (ih x hx hb)

theorem kind_of_mem_bindings {o b : Occurrence} (h : b ∈ o.bindings) : b.node.kind = .identifier := by
  induction o using bindings_induction with
  | step o ih =>
      rw [bindings_eq] at h
      split at h
      · rename_i hkind
        rw [List.mem_singleton.mp h]
        exact hkind
      · obtain ⟨x, hx, hb⟩ := List.mem_flatMap.mp h
        exact ih x hx hb

namespace Mangle

variable {options : Options} {t n : Node} {q : Path} {parts parts' : Occurrence → List Occurrence}

/-! ## Names for other modules -/

/-- The name that other modules use: that of an identifier, or a text. -/
def moduleName? (n : Node) : Option String :=
  if n.kind = .literal then n.text? "value" else n.name?

/-- What a specifier imports. -/
def importedParts (o : Occurrence) : List Occurrence :=
  if o.node.kind = .importSpecifier then (o.child? "imported").toList else []

/-- What a specifier, or an export of all that another module exports, is exported as. -/
def renamedParts (o : Occurrence) : List Occurrence :=
  if o.node.kind = .exportSpecifier ∨ o.node.kind = .exportAllDeclaration then
    (o.child? "exported").toList
  else []

/-- The identifiers that a declarator binds. -/
def declaratorBindings (o : Occurrence) : List Occurrence :=
  if o.node.kind = .variableDeclarator then (o.child? "id").toList.flatMap bindings else []

/-- The identifiers that a declaration binds. -/
def declarationBindings (o : Occurrence) : List Occurrence :=
  if o.node.kind = .variableDeclaration then (o.children "declarations").flatMap declaratorBindings
  else if o.node.kind = .functionDeclaration ∨ o.node.kind = .classDeclaration then
    (o.child? "id").toList.flatMap fun id => if id.node.kind = .identifier then [id] else []
  else []

/-- The identifiers that an exported declaration binds. -/
def declaredParts (o : Occurrence) : List Occurrence :=
  if o.node.kind = .exportNamedDeclaration then
    (o.child? "declaration").toList.flatMap declarationBindings
  else []

/-- The names that the enumerated parts of a tree hold, in the order of a traversal. -/
def namesOf (parts : Occurrence → List Occurrence) (t : Node) : List String :=
  (t.occurrences.flatMap parts).filterMap fun b => moduleName? b.node

/-- The names that a module imports from others. -/
def importedNames (t : Node) : List String := namesOf importedParts t

/-- The names that a module exports. -/
def exportedNames (t : Node) : List String := namesOf (fun o => renamedParts o ++ declaredParts o) t

/-! ## Enumerations of parts -/

/-- A function enumerates parts of an occurrence by what occurrences of similar trees agree in. -/
structure Enumerates (parts : Occurrence → List Occurrence) : Prop where
  thinned : ∀ {o o' : Occurrence}, o.Similar none o' → Thinned none (parts o) (parts o')
  contains : ∀ {o x : Occurrence}, x ∈ parts o → o.Contains x

namespace Enumerates

theorem child? (field : String) : Enumerates fun o => (o.child? field).toList where
  thinned h := thinned_child? h field
  contains hx := contains_of_child? (Option.mem_toList.mp hx)

theorem children (field : String) : Enumerates fun o => o.children field where
  thinned h := thinned_children h field
  contains hx := contains_of_mem_children hx

theorem nothing : Enumerates fun _ => [] where
  thinned _ := .nil
  contains hx := nomatch hx

theorem itself : Enumerates fun o => [o] where
  thinned h := .keep h .nil
  contains {o x} hx := by
    rw [List.mem_singleton.mp hx]
    exact Contains.refl o

theorem bindings : Enumerates Occurrence.bindings where
  thinned h := thinned_bindings h
  contains hx := contains_of_mem_bindings hx

theorem flatMap (h : Enumerates parts) (h' : Enumerates parts') :
    Enumerates fun o => (parts o).flatMap parts' where
  thinned hsimilar :=
    (h.thinned hsimilar).flatMap (fun _ _ _ => h'.thinned) fun _ _ => h'.contains
  contains hx := by
    obtain ⟨y, hy, hx⟩ := List.mem_flatMap.mp hx
    exact (h.contains hy).trans (h'.contains hx)

theorem append (h : Enumerates parts) (h' : Enumerates parts') :
    Enumerates fun o => parts o ++ parts' o where
  thinned hsimilar := (h.thinned hsimilar).append (h'.thinned hsimilar)
  contains hx := by
    rcases List.mem_append.mp hx with hx | hx
    · exact h.contains hx
    · exact h'.contains hx

/-- What is enumerated may depend on the kind of the node. -/
theorem ite (p : Kind → Prop) [DecidablePred p] (h : Enumerates parts) (h' : Enumerates parts') :
    Enumerates fun o => if p o.node.kind then parts o else parts' o where
  thinned {o o'} hsimilar := by
    rw [hsimilar.alike.kind]
    by_cases hp : p o.node.kind
    · rw [if_pos hp, if_pos hp]
      exact h.thinned hsimilar
    · rw [if_neg hp, if_neg hp]
      exact h'.thinned hsimilar
  contains {o x} hx := by
    by_cases hp : p o.node.kind
    · rw [if_pos hp] at hx
      exact h.contains hx
    · rw [if_neg hp] at hx
      exact h'.contains hx

end Enumerates

theorem enumerates_importedParts : Enumerates importedParts :=
  (Enumerates.child? "imported").ite (· = .importSpecifier) .nothing

theorem enumerates_renamedParts : Enumerates renamedParts :=
  (Enumerates.child? "exported").ite (fun k => k = .exportSpecifier ∨ k = .exportAllDeclaration)
    .nothing

theorem enumerates_declaratorBindings : Enumerates declaratorBindings :=
  ((Enumerates.child? "id").flatMap .bindings).ite (· = .variableDeclarator) .nothing

theorem enumerates_declarationBindings : Enumerates declarationBindings :=
  ((Enumerates.children "declarations").flatMap enumerates_declaratorBindings).ite
    (· = .variableDeclaration)
    (((Enumerates.child? "id").flatMap (Enumerates.itself.ite (· = .identifier) .nothing)).ite
      (fun k => k = .functionDeclaration ∨ k = .classDeclaration) .nothing)

theorem enumerates_declaredParts : Enumerates declaredParts :=
  ((Enumerates.child? "declaration").flatMap enumerates_declarationBindings).ite
    (· = .exportNamedDeclaration) .nothing

/-! ## Names before and after -/

/-- The name for other modules that stands at a position. -/
def moduleNameAt? (t : Node) (q : Path) : Option String := (t.at? q).bind moduleName?

theorem moduleNameAt?_of_at? (hq : t.at? q = some n) : moduleNameAt? t q = moduleName? n := by
  rw [moduleNameAt?, hq, Option.bind_some]

theorem text?_revise_of_ne (n : Node) (change : Option Change) {field : String} (hname : field ≠ "name")
    (hshorthand : field ≠ "shorthand") : (revise n change).text? field = n.text? field := by
  rcases change with _ | name | _
  · rfl
  · exact text?_congr (get?_set_of_ne hname)
  · exact text?_congr (get?_set_of_ne hshorthand)

/-- Texts are kept, and so the name changes only with that of an identifier. -/
theorem moduleNameAt?_mangle (options : Options) (hq : t.at? q = some n) :
    moduleNameAt? (mangle options t).1 q
      = if n.kind = .literal then n.text? "value" else (mangle options t).1.nameAt? q := by
  obtain ⟨m, hm, hout⟩ := (tracks_mangle options t).at? hq
  have hm : (mangle options t).1.at? q = some m := hm
  have hkind : m.kind = n.kind := by rw [← kind_outline, hout, kind_revise, kind_outline]
  have htext : m.text? "value" = n.text? "value" := by
    rw [← text?_outline, hout, text?_revise_of_ne _ _ (by decide) (by decide), text?_outline]
  rw [moduleNameAt?_of_at? hm, moduleName?, hkind, htext, nameAt?, hm, Option.bind_some]

/-- What has a name has one afterwards, and what has none has none. -/
theorem isSome_nameAt?_mangle (options : Options) (t : Node) (q : Path) :
    ((mangle options t).1.nameAt? q).isSome = (t.nameAt? q).isSome := by
  by_cases hsame : (mangle options t).1.nameAt? q = t.nameAt? q
  · rw [hsame]
  · obtain ⟨g, hg⟩ := (nameAt?_ne_iff options t q).mp hsame
    obtain ⟨_, n, old, hmet, _, hold⟩ := renamed_of_changes (sites_of options t) (fun _ hr => hr) hg
    have hq := at?_of_met? hmet
    rw [nameAt?_mangle hq, hg, name?_revise_renamed, nameAt?, hq, Option.bind_some, hold]
    rfl

/-- Two lists of names that are read off the same positions, with names at the same of them, are equal iff
the names are. -/
theorem filterMap_eq_filterMap_iff {α β : Type} {f g : α → Option β} {l : List α}
    (h : ∀ a ∈ l, (f a).isSome = (g a).isSome) :
    l.filterMap f = l.filterMap g ↔ ∀ a ∈ l, f a = g a := by
  induction l with
  | nil => simp
  | cons a l ih =>
      have ih := ih fun b hb => h b (List.mem_cons_of_mem _ hb)
      have ha := h a List.mem_cons_self
      cases hf : f a with
      | none =>
          rw [hf, eq_comm, Option.isSome_none, Option.isSome_eq_false_iff, Option.isNone_iff_eq_none] at ha
          rw [List.filterMap_cons_none hf, List.filterMap_cons_none ha, ih]
          simp [hf, ha]
      | some b =>
          rw [hf, eq_comm, Option.isSome_some, Option.isSome_iff_exists] at ha
          obtain ⟨b', hg⟩ := ha
          rw [List.filterMap_cons_some hf, List.filterMap_cons_some hg, List.cons.injEq, ih]
          simp [hf, hg]

namespace Enumerates

theorem holds (h : Enumerates parts) {b : Occurrence} (hb : b ∈ t.occurrences.flatMap parts) :
    t.Holds b := by
  obtain ⟨o, ho, hb⟩ := List.mem_flatMap.mp hb
  exact (h.contains hb).holds (at?_of_met? (mem_occurrences_iff.mp ho))

theorem namesOf_eq (h : Enumerates parts) (t : Node) :
    namesOf parts t = (t.occurrences.flatMap parts).filterMap fun b => moduleNameAt? t b.path := by
  apply List.filterMap_congr
  intro b hb
  rw [moduleNameAt?_of_at? (h.holds hb)]

/-- The mangled tree holds names at the same positions. -/
theorem namesOf_mangle (h : Enumerates parts) (options : Options) (t : Node) :
    namesOf parts (mangle options t).1
      = (t.occurrences.flatMap parts).filterMap
          fun b => moduleNameAt? (mangle options t).1 b.path := by
  have hresembles : t.Resembles Alike none (mangle options t).1 := (tracks_mangle options t).resembles
  have hroot : Occurrence.Similar none ⟨[], t⟩ ⟨[], (mangle options t).1⟩ :=
    similar_of_resembles hresembles (at?_nil t) (at?_nil _)
  have hparts : Thinned none (t.occurrences.flatMap parts)
      ((mangle options t).1.occurrences.flatMap parts) :=
    (thinned_below hroot).flatMap (fun _ _ _ => h.thinned) fun _ _ => h.contains
  apply hparts.filterMap_eq
  intro b _ b' hb' hsimilar
  rw [← hsimilar.path, moduleNameAt?_of_at? (h.holds hb')]

/-- **The names are the same iff each of them is.** -/
theorem namesOf_eq_iff (h : Enumerates parts) (options : Options) (t : Node) :
    namesOf parts (mangle options t).1 = namesOf parts t ↔
      ∀ b ∈ t.occurrences.flatMap parts, b.node.kind ≠ .literal →
        (mangle options t).1.nameAt? b.path = t.nameAt? b.path := by
  have hname : ∀ b ∈ t.occurrences.flatMap parts,
      moduleNameAt? t b.path = if b.node.kind = .literal then b.node.text? "value"
        else t.nameAt? b.path := by
    intro b hb
    rw [moduleNameAt?_of_at? (h.holds hb), moduleName?, nameAt?, h.holds hb, Option.bind_some]
  rw [h.namesOf_mangle, h.namesOf_eq, filterMap_eq_filterMap_iff]
  · refine forall₂_congr fun b hb => ?_
    rw [moduleNameAt?_mangle options (h.holds hb), hname b hb]
    by_cases hkind : b.node.kind = .literal
    · simp [hkind]
    · rw [if_neg hkind, if_neg hkind, forall_prop_of_true hkind]
  · intro b hb
    rw [moduleNameAt?_mangle options (h.holds hb), hname b hb]
    split
    · rfl
    · exact isSome_nameAt?_mangle options t b.path

end Enumerates

/-! ## Specifiers -/

/-- What neither declares nor refers to anything keeps its name. -/
theorem nameAt?_mangle_of_no_reference (options : Options) (hq : t.at? q = some n)
    (hclassify : Scope.classify? (t.ancestors q) = none)
    (hreference : ∀ name, Scope.isRenamable n.kind name (t.ancestors q) = false) :
    (mangle options t).1.nameAt? q = t.nameAt? q := by
  by_contra hne
  obtain ⟨g, hg⟩ := (nameAt?_ne_iff options t q).mp hne
  obtain ⟨_, m, name, hmet, _, hname⟩ := renamed_of_changes (sites_of options t) (fun _ hr => hr) hg
  obtain rfl := eq_of_met? hmet hq
  cases hsite : (Knowledge.of options t).site? q with
  | some site =>
      obtain ⟨hmem, rfl⟩ := (Knowledge.site?_eq_some_iff (sites_of options t)).mp hsite
      obtain ⟨_, _, hsite⟩ := mem_sites_iff.mp hmem
      obtain ⟨_, _, _, _, hsome, _⟩ := site?_eq_some_iff.mp hsite
      rw [hclassify] at hsome
      cases hsome
  | none =>
      rw [Knowledge.changes_of_no_site hsite (mem_positions_iff.mpr ⟨_, hmet⟩)] at hg
      have hrenamable := (reference_of_effect (sites_of options t) hmet hsite hname hg).1
      rw [hreference] at hrenamable
      cases hrenamable

/-- The field of a specifier, or of an export of all that another module exports, that spells a name for
other modules. -/
def spellsName (kind : Kind) (field : String) : Prop :=
  kind = .importSpecifier ∧ field = "imported" ∨ kind = .exportSpecifier ∧ field = "exported" ∨
    kind = .exportAllDeclaration ∧ field = "exported"

theorem nameAt?_mangle_of_spellsName (options : Options) {o b : Occurrence} {field : String}
    (ho : t.Holds o) (hb : o.child? field = some b) (hspells : spellsName o.node.kind field) :
    (mangle options t).1.nameAt? b.path = t.nameAt? b.path := by
  have hholds := (contains_of_child? hb).holds ho
  apply nameAt?_mangle_of_no_reference options hholds
  · rw [ancestors_of_child? ho hb]
    rcases hspells with ⟨hkind, rfl⟩ | ⟨hkind, rfl⟩ | ⟨hkind, rfl⟩ <;>
      simp [Scope.classify?, Scope.patternDepth, Scope.isPatternStep, hkind, Kind.isFunction]
  · intro name
    rw [ancestors_of_child? ho hb]
    rcases hspells with ⟨hkind, rfl⟩ | ⟨hkind, rfl⟩ | ⟨hkind, rfl⟩ <;>
      simp [Scope.isRenamable, Scope.isMarkupReference, Scope.isPlainReference, hkind]

theorem nameAt?_mangle_of_mem_importedParts (options : Options) {b : Occurrence}
    (hb : b ∈ t.occurrences.flatMap importedParts) :
    (mangle options t).1.nameAt? b.path = t.nameAt? b.path := by
  obtain ⟨o, ho, hb⟩ := List.mem_flatMap.mp hb
  have hholds := at?_of_met? (mem_occurrences_iff.mp ho)
  unfold importedParts at hb
  split at hb
  · rename_i hkind
    exact nameAt?_mangle_of_spellsName options hholds (Option.mem_toList.mp hb) (.inl ⟨hkind, rfl⟩)
  · cases hb

theorem nameAt?_mangle_of_mem_renamedParts (options : Options) {b : Occurrence}
    (hb : b ∈ t.occurrences.flatMap renamedParts) :
    (mangle options t).1.nameAt? b.path = t.nameAt? b.path := by
  obtain ⟨o, ho, hb⟩ := List.mem_flatMap.mp hb
  have hholds := at?_of_met? (mem_occurrences_iff.mp ho)
  unfold renamedParts at hb
  split at hb
  · rename_i hkind
    apply nameAt?_mangle_of_spellsName options hholds (Option.mem_toList.mp hb)
    rcases hkind with hkind | hkind
    · exact .inr (.inl ⟨hkind, rfl⟩)
    · exact .inr (.inr ⟨hkind, rfl⟩)
  · cases hb

/-! ## Exported declarations -/

/-- A declaration keeps its name iff the name is excluded. -/
theorem Declares.nameAt?_mangle_eq_iff {name : String} {scope : Path} (h : Declares t q name scope) :
    (mangle options t).1.nameAt? q = t.nameAt? q ↔ name ∈ options.reserved := by
  constructor
  · intro hsame
    by_contra hname
    obtain ⟨generated, hgenerated, hafter⟩ := h.exists_generated hname
    obtain ⟨n, hmet, hkind, hold⟩ := h.met
    have hcensus : name ∈ census t := mem_census hmet (by simp [isNamed, hkind]) hold
    rw [hafter, h.nameAt?, Option.some.injEq] at hsame
    exact generated?_not_mem_census hgenerated (hsame ▸ hcensus)
  · intro hname
    have hnone : generated? (mangle options t).2.assignments ⟨name, scope⟩ = none :=
      generated?_of_excluded hname
    rw [nameAt?_of_declares h, hnone, h.nameAt?, Option.none_or]

/-- The identifier is met below the occurrence and declares a binding. -/
structure DeclaresBelow (t : Node) (d b : Occurrence) : Prop where
  below : b ∈ d.below
  kind : b.node.kind = .identifier
  classify : (Scope.classify? (t.ancestors b.path)).isSome = true

theorem declaresBelow_of_declarator {d b : Occurrence} (hd : t.Holds d) {above : List Ancestor}
    {parent : Ancestor} (habove : t.ancestors d.path = parent :: above)
    (hb : b ∈ declaratorBindings d) : DeclaresBelow t d b := by
  unfold declaratorBindings at hb
  split at hb
  · rename_i hkind
    obtain ⟨root, hroot, hb⟩ := List.mem_flatMap.mp hb
    have hroot := Option.mem_toList.mp hroot
    have hbelow := mem_below_of_child? (by rw [hkind]; decide) hroot
    refine ⟨mem_below_trans hbelow (mem_below_of_mem_bindings hb), kind_of_mem_bindings hb, ?_⟩
    have houtside : Scope.outside (t.ancestors b.path)
        = d.leaving ⟨"id", none⟩ :: parent :: above := by
      rw [Scope.outside_of_mem_bindings ((contains_of_child? hroot).holds hd) hb,
        ancestors_of_child? hd hroot, habove]
      apply Scope.outside_of_not_isPatternStep
      simp [Scope.isPatternStep, hkind]
    have hne : t.ancestors b.path ≠ [] := by
      intro hnil
      rw [hnil] at houtside
      cases houtside
    rw [Scope.classify?_of_declarator houtside hkind rfl, Option.isSome_map]
    exact Scope.isSome_ownerOrRoot? hne _ _
  · cases hb

theorem declaresBelow_of_mem_declarationBindings {d b : Occurrence} (hd : t.Holds d)
    (hb : b ∈ declarationBindings d) : DeclaresBelow t d b := by
  unfold declarationBindings at hb
  split at hb
  · rename_i hkind
    obtain ⟨c, hc, hb⟩ := List.mem_flatMap.mp hb
    obtain ⟨i, habove⟩ := ancestors_of_mem_children hd hc
    have hdeclares := declaresBelow_of_declarator ((contains_of_mem_children hc).holds hd) habove hb
    have hbelow := mem_below_of_mem_children (by rw [hkind]; decide) hc
    exact ⟨mem_below_trans hbelow hdeclares.below, hdeclares.kind, hdeclares.classify⟩
  · split at hb
    · rename_i hkind
      obtain ⟨id, hid, hb⟩ := List.mem_flatMap.mp hb
      have hid := Option.mem_toList.mp hid
      split at hb
      · rename_i hidentifier
        obtain rfl := List.mem_singleton.mp hb
        refine ⟨mem_below_of_child? ?_ hid, hidentifier, ?_⟩
        · rcases hkind with hkind | hkind <;> rw [hkind] <;> decide
        · rw [ancestors_of_child? hd hid,
            Scope.classify?_of_declaration (a := d.leaving ⟨"id", none⟩) hkind rfl, Option.isSome_map]
          exact Scope.isSome_ownerOrRoot? (List.cons_ne_nil _ _) _ _
      · cases hb
    · cases hb

/-- What an exported declaration binds is an identifier that declares its name. -/
theorem declares_of_mem_declaredParts {b : Occurrence}
    (hb : b ∈ t.occurrences.flatMap declaredParts) :
    b.node.kind = .identifier ∧
      ∀ name, b.node.name? = some name → ∃ scope, Declares t b.path name scope := by
  obtain ⟨o, ho, hb⟩ := List.mem_flatMap.mp hb
  unfold declaredParts at hb
  split at hb
  · rename_i hkind
    obtain ⟨d, hd, hb⟩ := List.mem_flatMap.mp hb
    have hdmet := mem_occurrences_of_mem_below ho
      (mem_below_of_child? (by rw [hkind]; decide) (Option.mem_toList.mp hd))
    have hdeclares :=
      declaresBelow_of_mem_declarationBindings (at?_of_met? (mem_occurrences_iff.mp hdmet)) hb
    have hmet := mem_occurrences_iff.mp (mem_occurrences_of_mem_below hdmet hdeclares.below)
    obtain ⟨⟨binding, scope⟩, hscope⟩ := Option.isSome_iff_exists.mp hdeclares.classify
    exact ⟨hdeclares.kind, fun name hname => ⟨scope, ⟨_, hmet, hdeclares.kind, hname⟩, binding, hscope⟩⟩
  · cases hb

/-- The declared names are kept iff they are excluded. -/
theorem nameAt?_mangle_of_mem_declaredParts_iff (options : Options) (t : Node) :
    (∀ b ∈ t.occurrences.flatMap declaredParts,
      (mangle options t).1.nameAt? b.path = t.nameAt? b.path) ↔
      ∀ name ∈ namesOf declaredParts t, name ∈ options.reserved := by
  have hname : ∀ b ∈ t.occurrences.flatMap declaredParts, moduleName? b.node = b.node.name? := by
    intro b hb
    rw [moduleName?, (declares_of_mem_declaredParts hb).1, if_neg (by decide)]
  constructor
  · intro hsame name hmem
    obtain ⟨b, hb, hbname⟩ := List.mem_filterMap.mp hmem
    rw [hname b hb] at hbname
    obtain ⟨scope, hdeclares⟩ := (declares_of_mem_declaredParts hb).2 name hbname
    exact hdeclares.nameAt?_mangle_eq_iff.mp (hsame b hb)
  · intro hreserved b hb
    cases hbname : b.node.name? with
    | none =>
        have hnone : t.nameAt? b.path = none := by
          rw [nameAt?, enumerates_declaredParts.holds hb]
          exact hbname
        have hsome := isSome_nameAt?_mangle options t b.path
        rw [hnone, Option.isSome_none, Option.isSome_eq_false_iff, Option.isNone_iff_eq_none] at hsome
        rw [hsome, hnone]
    | some name =>
        obtain ⟨scope, hdeclares⟩ := (declares_of_mem_declaredParts hb).2 name hbname
        apply hdeclares.nameAt?_mangle_eq_iff.mpr
        apply hreserved
        exact List.mem_filterMap.mpr ⟨b, hb, (hname b hb).trans hbname⟩

/-- **What mangling keeps of the interface of a module.** It keeps the names that the module imports, and
those that specifiers export. All exported names are kept iff every name that an exported declaration
binds is excluded. -/
theorem interface_kept_iff (options : Options) (t : Node) :
    importedNames (mangle options t).1 = importedNames t ∧
    namesOf renamedParts (mangle options t).1 = namesOf renamedParts t ∧
    (exportedNames (mangle options t).1 = exportedNames t ↔
      ∀ name ∈ namesOf declaredParts t, name ∈ options.reserved) := by
  have himported : ∀ b ∈ t.occurrences.flatMap importedParts,
      (mangle options t).1.nameAt? b.path = t.nameAt? b.path :=
    fun b hb => nameAt?_mangle_of_mem_importedParts options hb
  have hrenamed : ∀ b ∈ t.occurrences.flatMap renamedParts,
      (mangle options t).1.nameAt? b.path = t.nameAt? b.path :=
    fun b hb => nameAt?_mangle_of_mem_renamedParts options hb
  refine ⟨?_, ?_, ?_⟩
  · exact (enumerates_importedParts.namesOf_eq_iff options t).mpr fun b hb _ => himported b hb
  · exact (enumerates_renamedParts.namesOf_eq_iff options t).mpr fun b hb _ => hrenamed b hb
  · rw [exportedNames, exportedNames,
      (enumerates_renamedParts.append enumerates_declaredParts).namesOf_eq_iff,
      ← nameAt?_mangle_of_mem_declaredParts_iff]
    constructor
    · intro hsame b hb
      obtain ⟨o, ho, hbo⟩ := List.mem_flatMap.mp hb
      have hkind := (declares_of_mem_declaredParts hb).1
      apply hsame b (List.mem_flatMap.mpr ⟨o, ho, List.mem_append_right _ hbo⟩)
      rw [hkind]
      decide
    · intro hsame b hb _
      obtain ⟨o, ho, hbo⟩ := List.mem_flatMap.mp hb
      rcases List.mem_append.mp hbo with hbo | hbo
      · exact hrenamed b (List.mem_flatMap.mpr ⟨o, ho, hbo⟩)
      · exact hsame b (List.mem_flatMap.mpr ⟨o, ho, hbo⟩)

/-- `export const x = 1;` -/
def exportingConstant : Node :=
  ⟨.program, [("body", .list [some ⟨.exportNamedDeclaration,
    [("declaration", .child ⟨.variableDeclaration,
      [("kind", .value (.string "const")), ("declarations", .list
        [some ⟨.variableDeclarator, [("id", .child (Expression.identifier "x")),
          ("init", .child ⟨.literal, [("value", .value (.number (.int 1)))]⟩)]⟩])]⟩)]⟩])]⟩

example : exportedNames exportingConstant = ["x"] ∧
    exportedNames (mangle {} exportingConstant).1 = ["L"] := by
  unfold mangle mangleWith
  rw [Knowledge.of_default]
  decide +kernel

end Mangle

end Minifier
