import Minifier.Mangle.Rename
import Minifier.Proofs.Tree.Traversal

/-!
# The sites of a tree

A site is an identifier that a traversal meets and that declares a candidate of the same name. There is at
most one at each position, so that looking a position up finds the site that is there
(`Knowledge.site?_eq_some_iff`).
-/

namespace Minifier.Mangle

variable {t : Node}

/-- What it takes to be a site. -/
theorem site?_eq_some_iff {o : Occurrence} {site : Site} :
    site? t o = some site ↔
      o.node.kind = .identifier ∧ o.node.name? = some site.candidate.name ∧ site.path = o.path ∧
        ∃ binding, Scope.classify? (t.ancestors o.path) = some (binding, site.candidate.scope) ∧
          site.direct = (binding == .parameter true) := by
  obtain ⟨path, ⟨name, scope⟩, direct⟩ := site
  unfold site?
  by_cases hkind : o.node.kind = .identifier
  · cases hclassify : Scope.classify? (t.ancestors o.path) with
    | none => simp [hkind]
    | some answer =>
        obtain ⟨binding, owner⟩ := answer
        cases hname : o.node.name? with
        | none => simp [hkind]
        | some name' =>
            simp only [hkind, ne_eq, not_true_eq_false, if_false, Option.bind_eq_bind,
              Option.bind_some, Option.some.injEq, Site.mk.injEq, Candidate.mk.injEq, true_and,
              Prod.mk.injEq]
            constructor
            · rintro ⟨rfl, ⟨rfl, rfl⟩, rfl⟩
              exact ⟨rfl, rfl, binding, ⟨rfl, rfl⟩, rfl⟩
            · rintro ⟨rfl, rfl, _, ⟨rfl, rfl⟩, rfl⟩
              exact ⟨rfl, ⟨rfl, rfl⟩, rfl⟩
  · simp [hkind]

theorem mem_sites_iff {site : Site} :
    site ∈ sites t ↔ ∃ n, t.met? site.path = some n ∧ site? t ⟨site.path, n⟩ = some site := by
  unfold sites
  rw [List.mem_filterMap]
  constructor
  · rintro ⟨o, ho, hsite⟩
    have hpath := (site?_eq_some_iff.mp hsite).2.2.1
    refine ⟨o.node, ?_, ?_⟩
    · rw [hpath]
      exact Node.mem_occurrences_iff.mp ho
    · rw [hpath]
      exact hsite
  · rintro ⟨n, hmet, hsite⟩
    exact ⟨⟨site.path, n⟩, Node.mem_occurrences_iff.mpr hmet, hsite⟩

/-- There is at most one site at each position. -/
theorem nodup_sites (t : Node) : ((sites t).map (·.path)).Nodup := by
  have hsublist : List.Sublist ((sites t).map (·.path)) t.positions := by
    unfold sites Node.positions
    induction t.occurrences with
    | nil => exact .slnil
    | cons o rest ih =>
        rw [List.filterMap_cons, List.map_cons]
        cases hsite : site? t o with
        | none => exact ih.cons _
        | some site =>
            rw [List.map_cons, (site?_eq_some_iff.mp hsite).2.2.1]
            exact ih.cons_cons _
  exact t.nodup_positions.sublist hsublist

/-- In a list without two sites at one position, the search for a position finds the site there. -/
theorem find?_path_eq_some_iff {l : List Site} (hl : (l.map (·.path)).Nodup) {p : Path}
    {site : Site} : l.find? (·.path == p) = some site ↔ site ∈ l ∧ site.path = p := by
  constructor
  · intro h
    exact ⟨List.mem_of_find?_eq_some h, by simpa using List.find?_some h⟩
  · rintro ⟨hmem, rfl⟩
    cases hfind : l.find? (·.path == site.path) with
    | none => simpa using List.find?_eq_none.mp hfind site hmem
    | some other =>
        have hpath : other.path = site.path := by simpa using List.find?_some hfind
        rw [List.inj_on_of_nodup_map hl (List.mem_of_find?_eq_some hfind) hmem hpath]

/-- A whole parameter is declared at the position, and not a part of one. -/
def IsWholeParameter (t : Node) (p : Path) : Prop :=
  (Scope.classify? (t.ancestors p)).map Prod.fst = some (.parameter true)

instance (t : Node) (p : Path) : Decidable (IsWholeParameter t p) :=
  inferInstanceAs (Decidable (_ = _))

namespace Knowledge

variable {k : Knowledge}

theorem site?_eq_some_iff (hk : k.sites = Mangle.sites t) {p : Path} {site : Site} :
    k.site? p = some site ↔ site ∈ Mangle.sites t ∧ site.path = p := by
  unfold Knowledge.site?
  rw [hk]
  exact find?_path_eq_some_iff (nodup_sites t)

/-- The node at a site. -/
theorem node_of_site? (hk : k.sites = Mangle.sites t) {p : Path} {site : Site}
    (h : k.site? p = some site) :
    ∃ n, t.met? p = some n ∧ n.kind = .identifier ∧ n.name? = some site.candidate.name := by
  obtain ⟨hmem, rfl⟩ := (site?_eq_some_iff hk).mp h
  obtain ⟨n, hmet, hsite⟩ := mem_sites_iff.mp hmem
  obtain ⟨hkind, hname, _⟩ := Mangle.site?_eq_some_iff.mp hsite
  exact ⟨n, hmet, hkind, hname⟩

/-- A site is direct iff it is a whole parameter. -/
theorem direct_of_site? (hk : k.sites = Mangle.sites t) {p : Path} {site : Site}
    (h : k.site? p = some site) : site.direct = true ↔ IsWholeParameter t p := by
  obtain ⟨hmem, rfl⟩ := (site?_eq_some_iff hk).mp h
  obtain ⟨n, _, hsite⟩ := mem_sites_iff.mp hmem
  obtain ⟨_, _, _, binding, hclassify, hdirect⟩ := Mangle.site?_eq_some_iff.mp hsite
  rw [IsWholeParameter, hclassify, hdirect]
  simp

/-- An identifier with a name that declares a candidate is a site. -/
theorem isSome_site? (hk : k.sites = Mangle.sites t) {p : Path} {n : Node} {name : String}
    (hmet : t.met? p = some n) (hkind : n.kind = .identifier) (hname : n.name? = some name)
    (hclassify : (Scope.classify? (t.ancestors p)).isSome = true) : (k.site? p).isSome = true := by
  obtain ⟨⟨binding, scope⟩, hclassify⟩ := Option.isSome_iff_exists.mp hclassify
  let site : Site := ⟨p, ⟨name, scope⟩, binding == .parameter true⟩
  have hsite : Mangle.site? t ⟨p, n⟩ = some site :=
    Mangle.site?_eq_some_iff.mpr ⟨hkind, hname, rfl, binding, hclassify, rfl⟩
  have hmem : site ∈ Mangle.sites t := mem_sites_iff.mpr ⟨n, hmet, hsite⟩
  rw [(site?_eq_some_iff hk).mpr ⟨hmem, rfl⟩]
  rfl

end Knowledge

end Minifier.Mangle
