import Minifier.Proofs.Mangle.Spelling
import Minifier.Proofs.Mangle.Supply

/-!
# Two runs in lockstep

Two runs that know the same of a tree, but for the names that they give, go in lockstep: they look at the same
positions, ask the same questions and get the same answers. What makes the answers agree is that a reference
is looked for by the name that it has in the original tree, and that no given name occurs there.

* `sight?` is what a search finds at a binding, read off the original tree and the changes made so far.
* `Parallel` relates what two runs know, by a map `f` of the names that they give.
* The changes that they make correspond by `f` at every moment (`Parallel.changes_eq`), and so do the
  trees that they end with (`Parallel.tree_eq`).
-/

namespace Minifier

open Node

/-- What is similar to something lies outside the gap. -/
theorem Occurrence.Similar.not_concealed {gap : Option Path} {o o' : Occurrence}
    (h : o.Similar gap o') : ¬ Concealed gap o.path := by
  have hroot := h.node []
  rw [List.append_nil, Node.at?_nil, Node.at?_nil] at hroot
  cases hroot with
  | present hshown _ => exact hshown

/-- A search through a thinned list is a search through what lies outside the gap. -/
theorem Thinned.findSome?_filter {α : Type} {q : Path} {l l' : List Occurrence}
    (h : Thinned (some q) l l') {f g : Occurrence → Option α}
    (hkeep : ∀ b ∈ l, ∀ b' ∈ l', b.Similar (some q) b' → g b' = f b) :
    l'.findSome? g = (l.filter fun b => ¬ q <+: b.path).findSome? f := by
  induction h with
  | nil => rfl
  | @keep b b' l l' h _ ih =>
      have hshown : ¬ q <+: b.path := fun hpre => h.not_concealed ⟨q, rfl, hpre⟩
      have hrest := ih fun c hc c' hc' =>
        hkeep c (List.mem_cons_of_mem _ hc) c' (List.mem_cons_of_mem _ hc')
      rw [List.filter_cons_of_pos (by simpa using hshown), List.findSome?_cons, List.findSome?_cons,
        hkeep b List.mem_cons_self b' List.mem_cons_self h, hrest]
  | @drop b l l' h _ ih =>
      obtain ⟨r, hr, hpre⟩ := h
      cases hr
      rw [List.filter_cons_of_neg (by simpa using hpre)]
      exact ih fun c hc c' hc' => hkeep c (List.mem_cons_of_mem _ hc) c' hc'

/-- A property of similar occurrences holds somewhere in the one list iff in the other. -/
theorem Thinned.any_eq {l l' : List Occurrence} (h : Thinned none l l') {f g : Occurrence → Bool}
    (hkeep : ∀ b ∈ l, ∀ b' ∈ l', b.Similar none b' → g b' = f b) : l'.any g = l.any f := by
  induction h with
  | nil => rfl
  | @keep b b' l l' h _ ih =>
      have hrest := ih fun c hc c' hc' =>
        hkeep c (List.mem_cons_of_mem _ hc) c' (List.mem_cons_of_mem _ hc')
      rw [List.any_cons, List.any_cons, hkeep b List.mem_cons_self b' List.mem_cons_self h, hrest]
  | drop h _ _ => exact absurd h (not_concealed_none _)

/-- What a name refers to, with the name of a renamed binding mapped. -/
def Scope.Resolution.map (f : String → String) : Scope.Resolution → Scope.Resolution
  | .binding name => .binding (f name)
  | .shadowed => .shadowed
  | .unresolved => .unresolved

theorem Scope.Resolution.name?_map (f : String → String) (r : Scope.Resolution) :
    (r.map f).name? = r.name?.map f := by
  cases r <;> rfl

theorem Scope.Resolution.name?_eq_some_iff {r : Scope.Resolution} {name : String} :
    r.name? = some name ↔ r = .binding name := by
  cases r <;> simp [name?]

namespace Mangle

/-- A change with the name that it gives mapped. -/
def Change.map (f : String → String) : Change → Change
  | .renamed name => .renamed (f name)
  | .expanded => .expanded

variable {t n m : Node} {p : Progress} {changes : Path → Option Change}
  {former : Path → Option String} {k k₁ k₂ : Knowledge} {f : String → String} {q : Path}
  {done : List Path} {name : String}

/-! ## What a search sees -/

/-- What a search for a name finds at a binding of the original tree, when the changes were made and the
former names are known. -/
def sight? (changes : Path → Option Change) (former : Path → Option String) (name : String)
    (b : Occurrence) : Option Scope.Resolution :=
  match former b.path with
  | some old => if old = name then (revise b.node (changes b.path)).name?.map .binding else none
  | none => if (revise b.node (changes b.path)).isIdentifierNamed name then some .shadowed else none

/-- What a search for the name of an identifier finds, which leaves out what is below the identifier. -/
def search (t : Node) (changes : Path → Option Change) (former : Path → Option String) (q : Path)
    (name : String) : Scope.Resolution :=
  (((Scope.visible (t.ancestors q)).filter fun b => ¬ q <+: b.path).findSome?
    (sight? changes former name)).getD .unresolved

theorem exists_of_search {g : String} (h : search t changes former q name = .binding g) :
    ∃ b ∈ Scope.visible (t.ancestors q), sight? changes former name b = some (.binding g) := by
  rw [search, Option.getD_eq_iff] at h
  rcases h with h | ⟨_, h⟩
  · obtain ⟨b, hmem, hb⟩ := List.exists_of_findSome?_eq_some h
    exact ⟨b, List.mem_of_mem_filter hmem, hb⟩
  · cases h

/-- The name of a node of the changed tree. -/
theorem Tracks.name?_eq (h : Tracks t changes former p) (hn : t.at? q = some n)
    (hm : p.tree.at? q = some m) : m.name? = (revise n (changes q)).name? := by
  obtain ⟨m', hm', hout⟩ := h.at? hn
  rw [hm] at hm'
  cases hm'
  rw [← name?_outline, hout, name?_revise_outline]

/-- **A search in the changed tree, with the slot of the reference empty.** -/
theorem Tracks.resolve_eq (h : Tracks t changes former p) {rest : Node} (hq : t.at? q = some n)
    (hne : q ≠ []) (hdetach : p.tree.detach q = some (m, rest)) (name : String) :
    Scope.resolve (rest.ancestors q) name p.marks = search t changes former q name := by
  have hsimilar := similar_ancestors_of_gap (h.resembles_detach hne hdetach) hq
    fun r hr => (Option.some.inj hr).symm
  rw [Scope.resolve_eq, search]
  congr 1
  apply (thinned_visible hsimilar).findSome?_filter
  intro b hb b' hb' hbb'
  -- Emptying a slot changes no name.
  obtain ⟨y, hy, hsame⟩ := sameText_of_detach hne hdetach (Scope.holds_of_mem_visible hb')
  rw [hbb'.path] at hy
  have hname : b'.node.name? = (revise b.node (changes b.path)).name? := by
    rw [← h.name?_eq (Scope.holds_of_mem_visible hb) hy]
    exact hsame.text "name"
  unfold Scope.matching? sight?
  rw [hbb'.path, h.marks]
  cases former b.path with
  | some old => simp only [hname]
  | none => simp only [isIdentifierNamed, hname, kind_revise, hbb'.alike.kind]

/-- A search in lockstep: what is marked has a given name, and what is not is not taken for the name that
is looked for by what it was renamed to. -/
theorem sight?_map {b : Occurrence}
    (hnew : ∀ g, changes b.path = some (.renamed g) → g ≠ name ∧ f g ≠ name)
    (hmarked : ∀ old, former b.path = some old → ∃ g, changes b.path = some (.renamed g)) :
    sight? (fun r => (changes r).map (Change.map f)) former name b
      = (sight? changes former name b).map (Scope.Resolution.map f) := by
  unfold sight?
  cases hformer : former b.path with
  | some old =>
      obtain ⟨g, hg⟩ := hmarked old hformer
      simp only [hg, Option.map_some, Change.map, name?_revise_renamed]
      split <;> rfl
  | none =>
      cases hchange : changes b.path with
      | none =>
          simp only [hchange, Option.map_none]
          split <;> rfl
      | some change =>
          cases change with
          | expanded =>
              simp only [hchange, Option.map_some, Change.map]
              split <;> rfl
          | renamed g =>
              obtain ⟨hg, hfg⟩ := hnew g hchange
              simp [hchange, Change.map, isIdentifierNamed, hg, hfg]

/-- **A whole search in lockstep.** -/
theorem search_map (hnew : ∀ r g, changes r = some (.renamed g) → g ≠ name ∧ f g ≠ name)
    (hmarked : ∀ r old, former r = some old → ∃ g, changes r = some (.renamed g)) :
    search t (fun r => (changes r).map (Change.map f)) former q name
      = (search t changes former q name).map f := by
  have hsight : sight? (fun r => (changes r).map (Change.map f)) former name
      = fun b => (sight? changes former name b).map (Scope.Resolution.map f) := by
    funext b
    exact sight?_map (hnew b.path) (hmarked b.path)
  rw [search, search, hsight]
  induction (Scope.visible (t.ancestors q)).filter fun b => ¬ q <+: b.path with
  | nil => rfl
  | cons b l ih =>
      rw [List.findSome?_cons, List.findSome?_cons]
      cases sight? changes former name b with
      | none => exact ih
      | some r => rfl

/-! ## What a shorthand property stands for -/

theorem toList_shorthandBinding? (o : Occurrence) :
    (Progress.shorthandBinding? o).toList
      = (o.child? "value").toList.flatMap fun value =>
          if value.node.kind = .assignmentPattern then (value.child? "left").toList else [value] := by
  unfold Progress.shorthandBinding?
  cases o.child? "value" with
  | none => rfl
  | some value =>
      simp only [Option.bind_some, Option.toList_some, List.flatMap_singleton]
      split <;> rfl

theorem contains_of_shorthandBinding? {o b : Occurrence} (h : Progress.shorthandBinding? o = some b) :
    o.Contains b := by
  obtain ⟨value, hvalue, hb⟩ := Option.bind_eq_some_iff.mp h
  split at hb
  · exact (Occurrence.contains_of_child? hvalue).trans (Occurrence.contains_of_child? hb)
  · cases hb
    exact Occurrence.contains_of_child? hvalue

theorem thinned_shorthandBinding? {gap : Option Path} {o o' : Occurrence} (h : o.Similar gap o') :
    Thinned gap (Progress.shorthandBinding? o).toList (Progress.shorthandBinding? o').toList := by
  rw [toList_shorthandBinding?, toList_shorthandBinding?]
  apply (thinned_child? h "value").flatMap
  · intro value _ value' hvalue
    rw [hvalue.alike.kind]
    split
    · exact thinned_child? hvalue "left"
    · exact .keep hvalue .nil
  · intro value b hb
    split at hb
    · exact Occurrence.contains_of_child? (Option.mem_toList.mp hb)
    · rw [List.mem_singleton.mp hb]
      exact .refl value

/-- The shorthand property of the original tree is written out when it is visited. -/
def writesOut (k : Knowledge) (changes : Path → Option Change) (former : Path → Option String)
    (property : Occurrence) : Bool :=
  property.node.flag "shorthand" &&
    (Progress.shorthandBinding? property).any fun b =>
      (former b.path).isSome || (k.site? b.path).isSome
        || (revise b.node (changes b.path)).name?.any k.isAssigned

theorem Tracks.expands_eq (h : Tracks t changes former p) (k : Knowledge) (hq : t.at? q = some n)
    (hnone : changes q = none) (hm : p.tree.at? q = some m) :
    p.expands k ⟨q, m⟩ = writesOut k changes former ⟨q, n⟩ := by
  obtain ⟨m', hm', hout⟩ := h.at?_unchanged hq hnone
  rw [hm] at hm'
  cases hm'
  have hflag : m.flag "shorthand" = n.flag "shorthand" := by rw [← flag_outline, hout, flag_outline]
  have hany : ∀ (o : Option Occurrence) (g : Occurrence → Bool), o.any g = o.toList.any g := by
    intro o g
    cases o <;> simp
  rw [Progress.expands, writesOut, hflag, hany, hany]
  congr 1
  apply (thinned_shorthandBinding? (similar_of_resembles h.resembles hq hm)).any_eq
  intro b hb b' hb' hbb'
  have hholds := (contains_of_shorthandBinding? (Option.mem_toList.mp hb)).holds hq
  have hholds' := (contains_of_shorthandBinding? (Option.mem_toList.mp hb')).holds hm
  rw [hbb'.path, h.marks, h.name?_eq hholds (hbb'.path ▸ hholds')]

/-! ## What a visit changes -/

theorem ne_nil_of_isRenamable {kind : Kind} (h : Scope.isRenamable kind name (t.ancestors q) = true) :
    q ≠ [] := by
  rintro rfl
  cases h

/-- A property is written out or not. -/
theorem effect_of_property (hk : k.sites = sites t) (hq : t.met? q = some n)
    (hsite : k.site? q = none) (hkind : n.kind = .property) :
    k.effect Scope.resolve t q =
      if writesOut k (k.changes (k.effect Scope.resolve t) (metBefore t q)) (k.former (metBefore t q))
        ⟨q, n⟩ then some .expanded else none := by
  obtain ⟨hnone, m, hm, hout⟩ := at?_before Scope.resolve hk hq hsite
  have hproperty : m.kind = .property := by rw [← kind_outline, hout, kind_outline, hkind]
  rw [← (tracks_before hk Scope.resolve q).expands_eq k (at?_of_met? hq) hnone hm]
  rw [Knowledge.effect, Progress.effect?, hm, Option.bind_some, if_pos hproperty]

/-- An identifier takes the name of what is found for it. -/
theorem effect_of_name? (hk : k.sites = sites t) (hq : t.met? q = some n) (hsite : k.site? q = none)
    (hn : isNamed n = true) (hname : n.name? = some name) :
    k.effect Scope.resolve t q
      = (if k.isAssigned name && Scope.isRenamable n.kind name (t.ancestors q) then
          (search t (k.changes (k.effect Scope.resolve t) (metBefore t q)) (k.former (metBefore t q))
            q name).name?
        else none).map .renamed := by
  obtain ⟨m, rest, hdetach, heq⟩ := effect_of_isNamed hk Scope.resolve hq hsite hn hname
  rw [heq]
  cases hrenamable : Scope.isRenamable n.kind name (t.ancestors q) with
  | false => simp
  | true =>
      rw [(tracks_before hk Scope.resolve q).resolve_eq (at?_of_met? hq)
        (ne_nil_of_isRenamable hrenamable) hdetach]

/-- What is written out is a property. -/
theorem property_of_effect (hk : k.sites = sites t) (hq : t.met? q = some n) (hsite : k.site? q = none)
    (h : k.effect Scope.resolve t q = some .expanded) : n.kind = .property := by
  obtain ⟨_, m, hm, hout⟩ := at?_before Scope.resolve hk hq hsite
  have hkind : m.kind = n.kind := by rw [← kind_outline, hout, kind_outline]
  rw [Knowledge.effect, Progress.effect?, hm, Option.bind_some] at h
  split at h
  · rename_i hproperty
    exact hkind ▸ hproperty
  · split at h
    · obtain ⟨g, _, hg⟩ := Option.map_eq_some_iff.mp h
      cases hg
    · cases h

/-- Nothing else is changed. -/
theorem effect_of_other (hk : k.sites = sites t) (hq : t.met? q = some n) (hsite : k.site? q = none)
    (hkind : n.kind ≠ .property) (hother : isNamed n = false ∨ n.name? = none) :
    k.effect Scope.resolve t q = none := by
  rcases heffect : k.effect Scope.resolve t q with _ | g | _
  · rfl
  · obtain ⟨hn, hnamed⟩ := isNamed_of_effect hk hq hsite heffect
    rcases hother with hother | hother
    · rw [hother] at hn
      cases hn
    · rw [hother] at hnamed
      cases hnamed
  · exact absurd (property_of_effect hk hq hsite heffect) hkind

/-- A name that is found for a reference is found at a declaration: the one that was given to its candidate,
which has the name that was looked for. -/
theorem site_of_sight? {effect : Path → Option Change} {b : Occurrence} {g : String}
    (h : sight? (k.changes effect done) (k.former done) name b = some (.binding g)) :
    ∃ site, k.site? b.path = some site ∧ site.candidate.name = name ∧
      generated? k.assignments site.candidate = some g := by
  unfold sight? at h
  cases hsite : k.site? b.path with
  | none =>
      rw [Knowledge.former_of_no_site hsite] at h
      dsimp only at h
      split at h <;> cases h
  | some site =>
      cases hgiven : k.given? done b.path with
      | none =>
          rw [Knowledge.former_of_site hsite, hgiven] at h
          dsimp only [Option.map_none] at h
          split at h <;> cases h
      | some g' =>
          rw [Knowledge.former_of_site hsite, Knowledge.changes_of_site hsite, hgiven] at h
          dsimp only [Option.map_some] at h
          split at h
          · rename_i hold
            rw [name?_revise_renamed] at h
            cases h
            obtain ⟨site', hsite', _, hgenerated⟩ := given?_eq_some_iff.mp hgiven
            rw [hsite] at hsite'
            cases hsite'
            exact ⟨site, rfl, hold, hgenerated⟩
          · cases h

/-- What takes another name without declaring one is a reference that sees a declaration of its old name, and
the name is the one that was given to the candidate that is declared there. -/
theorem binding_of_effect (hk : k.sites = sites t) (hq : t.met? q = some n)
    (hsite : k.site? q = none) (hname : n.name? = some name) {g : String}
    (h : k.effect Scope.resolve t q = some (.renamed g)) :
    Scope.isRenamable n.kind name (t.ancestors q) = true ∧
      ∃ b ∈ Scope.visible (t.ancestors q), ∃ site, k.site? b.path = some site ∧
        site.candidate.name = name ∧ generated? k.assignments site.candidate = some g := by
  obtain ⟨hn, _⟩ := isNamed_of_effect hk hq hsite h
  rw [effect_of_name? hk hq hsite hn hname] at h
  obtain ⟨g', hfound, hg⟩ := Option.map_eq_some_iff.mp h
  cases hg
  split at hfound
  · rename_i hreference
    rw [Bool.and_eq_true] at hreference
    obtain ⟨b, hvisible, hb⟩ := exists_of_search (Scope.Resolution.name?_eq_some_iff.mp hfound)
    exact ⟨hreference.2, b, hvisible, site_of_sight? hb⟩
  · cases hfound

/-- What takes another name without declaring one is a reference, and the name is one that was given to a
candidate of its old name. -/
theorem reference_of_effect (hk : k.sites = sites t) (hq : t.met? q = some n)
    (hsite : k.site? q = none) (hname : n.name? = some name) {g : String}
    (h : k.effect Scope.resolve t q = some (.renamed g)) :
    Scope.isRenamable n.kind name (t.ancestors q) = true ∧
      ∃ scope, generated? k.assignments ⟨name, scope⟩ = some g := by
  obtain ⟨hrenamable, _, _, site, _, hcandidate, hgenerated⟩ := binding_of_effect hk hq hsite hname h
  exact ⟨hrenamable, site.candidate.scope, hcandidate ▸ hgenerated⟩

/-! ## What a run changes -/

/-- What takes another name is an identifier that had one, and the name is one that was given. -/
theorem renamed_of_changes (hk : k.sites = sites t) (hdone : ∀ r ∈ done, r ∈ t.positions) {g : String}
    (h : k.changes (k.effect Scope.resolve t) done q = some (.renamed g)) :
    (∃ c, generated? k.assignments c = some g) ∧
      ∃ n old, t.met? q = some n ∧ isNamed n = true ∧ n.name? = some old := by
  cases hsite : k.site? q with
  | some site =>
      rw [Knowledge.changes_of_site hsite] at h
      obtain ⟨g', hgiven, hg⟩ := Option.map_eq_some_iff.mp h
      cases hg
      obtain ⟨site', _, _, hgenerated⟩ := given?_eq_some_iff.mp hgiven
      obtain ⟨n, hmet, hkind, hname⟩ := Knowledge.node_of_site? hk hsite
      exact ⟨⟨_, hgenerated⟩, n, _, hmet, by simp [isNamed, hkind], hname⟩
  | none =>
      rw [Knowledge.changes, hsite, Option.isSome_none, if_neg Bool.false_ne_true] at h
      split at h
      · rename_i hmem
        obtain ⟨n, hmet⟩ := mem_positions_iff.mp (hdone q hmem)
        obtain ⟨hn, hnamed⟩ := isNamed_of_effect hk hmet hsite h
        obtain ⟨old, hold⟩ := Option.isSome_iff_exists.mp hnamed
        obtain ⟨_, scope, hgenerated⟩ := reference_of_effect hk hmet hsite hold h
        exact ⟨⟨_, hgenerated⟩, n, old, hmet, hn, hold⟩
      · cases h

theorem property_of_changes (hk : k.sites = sites t) (hdone : ∀ r ∈ done, r ∈ t.positions)
    (h : k.changes (k.effect Scope.resolve t) done q = some .expanded) :
    ∃ n, t.met? q = some n ∧ n.kind = .property := by
  cases hsite : k.site? q with
  | some site =>
      rw [Knowledge.changes_of_site hsite] at h
      obtain ⟨g, _, hg⟩ := Option.map_eq_some_iff.mp h
      cases hg
  | none =>
      rw [Knowledge.changes, hsite, Option.isSome_none, if_neg Bool.false_ne_true] at h
      split at h
      · rename_i hmem
        obtain ⟨n, hmet⟩ := mem_positions_iff.mp (hdone q hmem)
        exact ⟨n, hmet, property_of_effect hk hmet hsite h⟩
      · cases h

/-- Nothing changes where no traversal comes. -/
theorem changes_of_not_mem_positions (hk : k.sites = sites t) (hq : q ∉ t.positions) :
    k.changes (k.effect Scope.resolve t) t.positions q = none := by
  rcases hchange : k.changes (k.effect Scope.resolve t) t.positions q with _ | g | _
  · rfl
  · obtain ⟨_, n, _, hmet, _⟩ := renamed_of_changes hk (fun _ hr => hr) hchange
    exact absurd (mem_positions_iff.mpr ⟨n, hmet⟩) hq
  · obtain ⟨n, hmet, _⟩ := property_of_changes hk (fun _ hr => hr) hchange
    exact absurd (mem_positions_iff.mpr ⟨n, hmet⟩) hq

/-- A marked declaration is one that was renamed. -/
theorem renamed_of_former {effect : Path → Option Change} {old : String}
    (h : k.former done q = some old) : ∃ g, k.changes effect done q = some (.renamed g) := by
  cases hsite : k.site? q with
  | none =>
      rw [Knowledge.former_of_no_site hsite] at h
      cases h
  | some site =>
      rw [Knowledge.former_of_site hsite] at h
      obtain ⟨g, hgiven, _⟩ := Option.map_eq_some_iff.mp h
      exact ⟨g, by rw [Knowledge.changes_of_site hsite, hgiven]; rfl⟩

/-- A traversal meets a node before what is below it. -/
theorem not_isPrefixOf_of_mem_metBefore {r : Path} (hq : q ∈ t.positions) (hr : r ∈ metBefore t q) :
    ¬ q <+: r := by
  have hsplit : t.positions = metBefore t q ++ t.positions.dropWhile (· ≠ q) :=
    (List.takeWhile_append_dropWhile ..).symm
  have hpairwise := t.pairwise_positions
  rw [hsplit, List.pairwise_append] at hpairwise
  rw [hsplit, List.mem_append] at hq
  exact hpairwise.2.2 r hr q (hq.resolve_left (not_mem_metBefore t q))

/-- What decides whether a property is written out when it is visited: its identifier is a site, or it is
not visited yet and so has the name that it had. -/
theorem writesOut_before {effect : Path → Option Change} (hq : t.met? q = some n) :
    writesOut k (k.changes effect (metBefore t q)) (k.former (metBefore t q)) ⟨q, n⟩
      = (n.flag "shorthand" && (Progress.shorthandBinding? ⟨q, n⟩).any fun b =>
          (k.site? b.path).isSome || b.node.name?.any k.isAssigned) := by
  rw [writesOut]
  cases hbinding : Progress.shorthandBinding? ⟨q, n⟩ with
  | none => rfl
  | some b =>
      have hbelow : q <+: b.path := (contains_of_shorthandBinding? hbinding).isPrefixOf
      have hnotyet : b.path ∉ metBefore t q := fun hmem =>
        not_isPrefixOf_of_mem_metBefore (mem_positions_iff.mpr ⟨n, hq⟩) hmem hbelow
      rw [Option.any_some, Option.any_some]
      cases hsite : k.site? b.path with
      | some site => simp
      | none =>
          have hunchanged : k.changes effect (metBefore t q) b.path = none := by
            simp [Knowledge.changes, hsite, hnotyet]
          rw [Knowledge.former_of_no_site hsite, hunchanged]
          rfl

/-! ## Two runs -/

/-- What two runs know of a tree, which agree but for the names that they give: those of the second are
those of the first mapped. Neither gives a name that occurs in the tree. -/
structure Parallel (t : Node) (f : String → String) (k₁ k₂ : Knowledge) : Prop where
  sites₁ : k₁.sites = sites t
  sites₂ : k₂.sites = sites t
  isAssigned : ∀ name, k₂.isAssigned name = k₁.isAssigned name
  generated : ∀ c, generated? k₂.assignments c = (generated? k₁.assignments c).map f
  fresh : ∀ c g, generated? k₁.assignments c = some g → g ∉ census t ∧ f g ∉ census t
  fixes : ∀ name ∈ census t, f name = name

namespace Parallel

theorem site?_eq (h : Parallel t f k₁ k₂) (q : Path) : k₂.site? q = k₁.site? q := by
  rw [Knowledge.site?, Knowledge.site?, h.sites₂, h.sites₁]

theorem given?_eq (h : Parallel t f k₁ k₂) (done : List Path) (q : Path) :
    k₂.given? done q = (k₁.given? done q).map f := by
  rw [Knowledge.given?, Knowledge.given?, h.site?_eq]
  cases k₁.site? q with
  | none => rfl
  | some site =>
      simp only [Option.bind_some]
      split
      · exact h.generated site.candidate
      · rfl

theorem former_eq (h : Parallel t f k₁ k₂) (done : List Path) : k₂.former done = k₁.former done := by
  funext q
  rw [Knowledge.former, Knowledge.former, h.site?_eq, h.given?_eq]
  simp only [Option.map_map, Function.comp_def]

/-- The changes correspond if the effects of the visits do. -/
theorem changes_of_effects (h : Parallel t f k₁ k₂) {effect₁ effect₂ : Path → Option Change}
    (heffect : ∀ r ∈ done, k₁.site? r = none → effect₂ r = (effect₁ r).map (Change.map f)) :
    k₂.changes effect₂ done = fun q => (k₁.changes effect₁ done q).map (Change.map f) := by
  funext q
  rw [Knowledge.changes, Knowledge.changes, h.site?_eq, h.given?_eq]
  cases hsite : k₁.site? q with
  | some site => simp [Option.map_map, Function.comp_def, Change.map]
  | none =>
      simp only [Option.isSome_none, Bool.false_eq_true, if_false]
      split
      · rename_i hmem
        exact heffect q hmem hsite
      · rfl

/-- The same shorthand properties are written out. -/
theorem writesOut_eq (h : Parallel t f k₁ k₂) (hq : t.met? q = some n) :
    writesOut k₂ (k₂.changes (k₂.effect Scope.resolve t) (metBefore t q)) (k₂.former (metBefore t q))
        ⟨q, n⟩
      = writesOut k₁ (k₁.changes (k₁.effect Scope.resolve t) (metBefore t q))
          (k₁.former (metBefore t q)) ⟨q, n⟩ := by
  have hassigned : k₂.isAssigned = k₁.isAssigned := funext h.isAssigned
  rw [writesOut_before hq, writesOut_before hq, hassigned]
  simp only [h.site?_eq]

/-- **One visit in lockstep.** What was changed before corresponds, and so does what the visit changes. -/
theorem effect_eq (h : Parallel t f k₁ k₂) (hq : t.met? q = some n) (hsite : k₁.site? q = none)
    (hchanges : k₂.changes (k₂.effect Scope.resolve t) (metBefore t q)
      = fun r => (k₁.changes (k₁.effect Scope.resolve t) (metBefore t q) r).map (Change.map f)) :
    k₂.effect Scope.resolve t q = (k₁.effect Scope.resolve t q).map (Change.map f) := by
  have hsite₂ : k₂.site? q = none := (h.site?_eq q).trans hsite
  by_cases hproperty : n.kind = .property
  · rw [effect_of_property h.sites₁ hq hsite hproperty, effect_of_property h.sites₂ hq hsite₂ hproperty,
      h.writesOut_eq hq]
    split <;> rfl
  · cases hn : isNamed n with
    | false =>
        rw [effect_of_other h.sites₁ hq hsite hproperty (.inl hn),
          effect_of_other h.sites₂ hq hsite₂ hproperty (.inl hn)]
        rfl
    | true =>
        cases hname : n.name? with
        | none =>
            rw [effect_of_other h.sites₁ hq hsite hproperty (.inr hname),
              effect_of_other h.sites₂ hq hsite₂ hproperty (.inr hname)]
            rfl
        | some name =>
            -- A name that was given is not one that occurs in the tree.
            have hnew : ∀ r g, k₁.changes (k₁.effect Scope.resolve t) (metBefore t q) r
                = some (.renamed g) → g ≠ name ∧ f g ≠ name := by
              intro r g hr
              obtain ⟨⟨c, hc⟩, _⟩ := renamed_of_changes h.sites₁
                (fun r => mem_positions_of_mem_metBefore) hr
              obtain ⟨hg, hfg⟩ := h.fresh c g hc
              have hmem := mem_census hq hn hname
              exact ⟨fun heq => hg (heq ▸ hmem), fun heq => hfg (heq ▸ hmem)⟩
            rw [effect_of_name? h.sites₁ hq hsite hn hname, effect_of_name? h.sites₂ hq hsite₂ hn hname,
              h.former_eq, hchanges, search_map hnew fun r old hr => renamed_of_former hr,
              h.isAssigned, Scope.Resolution.name?_map]
            split
            · rw [Option.map_map, Option.map_map]
              rfl
            · rfl

/-- **All visits in lockstep.** -/
theorem effects_eq (h : Parallel t f k₁ k₂) {done rest : List Path} (hpositions : t.positions = done ++ rest) :
    ∀ q ∈ done, k₁.site? q = none →
      k₂.effect Scope.resolve t q = (k₁.effect Scope.resolve t q).map (Change.map f) := by
  induction done using List.reverseRecOn generalizing rest with
  | nil =>
      intro q hq
      cases hq
  | append_singleton done q ih =>
      intro r hr hsite
      rw [List.append_assoc] at hpositions
      rcases List.mem_append.mp hr with hr | hr
      · exact ih hpositions r hr hsite
      · rw [List.mem_singleton.mp hr] at hsite ⊢
        obtain ⟨n, hn⟩ : ∃ n, t.met? q = some n := mem_positions_iff.mp (by rw [hpositions]; simp)
        apply h.effect_eq hn hsite
        rw [metBefore_eq hpositions]
        exact h.changes_of_effects (ih hpositions)

/-- **The changes of two runs correspond.** -/
theorem changes_eq (h : Parallel t f k₁ k₂) (q : Path) :
    k₂.changes (k₂.effect Scope.resolve t) t.positions q
      = (k₁.changes (k₁.effect Scope.resolve t) t.positions q).map (Change.map f) :=
  congrFun (h.changes_of_effects (h.effects_eq (List.append_nil _).symm)) q

/-- A changed node in lockstep. -/
theorem revise_eq (h : Parallel t f k₁ k₂) (hq : t.met? q = some n) :
    revise n.outline (k₂.changes (k₂.effect Scope.resolve t) t.positions q)
      = mapName f (revise n.outline (k₁.changes (k₁.effect Scope.resolve t) t.positions q)) := by
  rw [h.changes_eq]
  cases hchange : k₁.changes (k₁.effect Scope.resolve t) t.positions q with
  | none =>
      symm
      apply mapName_eq_self
      intro hn name hname
      apply h.fixes
      apply mem_census hq hn
      rw [← name?_outline]
      exact hname
  | some change =>
      cases change with
      | renamed g =>
          obtain ⟨_, n', _, hq', hn, _⟩ := renamed_of_changes h.sites₁ (fun _ hr => hr) hchange
          rw [hq] at hq'
          cases hq'
          have hn' : isNamed (n.outline.setName g) = true := hn
          rw [revise, mapName_of_name? hn' (name?_setName _ _)]
          exact (set_set ..).symm
      | expanded =>
          obtain ⟨n', hq', hkind⟩ := property_of_changes h.sites₁ (fun _ hr => hr) hchange
          rw [hq] at hq'
          cases hq'
          have hn : isNamed (revise n.outline (some .expanded)) = false := by
            rw [isNamed, kind_revise, kind_outline, hkind]
            rfl
          exact (mapName_of_not_isNamed hn).symm

/-- **Two runs end with the same tree but for the names that they gave.** -/
theorem tree_eq (h : Parallel t f k₁ k₂) :
    (referAll k₂ Scope.resolve (declareAll k₂ t)).tree
      = mapNames f (referAll k₁ Scope.resolve (declareAll k₁ t)).tree := by
  have htracks₁ := tracks_referAll h.sites₁ Scope.resolve
  have htracks₂ := tracks_referAll h.sites₂ Scope.resolve
  have hspelled₁ := respelled_referAll h.sites₁ Scope.resolve (respelled_declareAll h.sites₁)
  have hspelled₂ := respelled_referAll h.sites₂ Scope.resolve (respelled_declareAll h.sites₂)
  apply hspelled₂.ext (hspelled₁.trans (respelled_mapNames f _))
  intro q
  rw [htracks₂.tree, sketch_mapNames, htracks₁.positions_eq, htracks₁.tree]
  by_cases hq : q ∈ t.positions
  · obtain ⟨n, hn⟩ := mem_positions_iff.mp hq
    rw [if_pos hq, sketch, at?_of_met? hn]
    exact congrArg some (h.revise_eq hn)
  · rw [if_neg hq, h.changes_eq, changes_of_not_mem_positions h.sites₁ hq]
    rfl

end Parallel

end Mangle

end Minifier
