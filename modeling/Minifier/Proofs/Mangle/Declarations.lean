import Minifier.Proofs.Mangle.Supply

/-!
# Declarations take the names of their candidates

Every declaration is renamed exactly once, by the first pass or, if it is a whole parameter, by the
second. It ends up with the name that its candidate was given (`nameAt?_of_declares`). As candidates are told
apart by name and owner, so are the declarations afterwards.
-/

namespace Minifier.Mangle

open Node

variable {options : Options} {t : Node} {p q : Path} {name name' : String} {scope scope' : Path}

/-- The identifier at a position is met, has the name, and declares it for the scope, as a parameter, a
variable, a function or a class. -/
structure Declares (t : Node) (p : Path) (name : String) (scope : Path) : Prop where
  met : ∃ n, t.met? p = some n ∧ n.kind = .identifier ∧ n.name? = some name
  binds : ∃ binding, Scope.classify? (t.ancestors p) = some (binding, scope)

theorem Declares.exists_site (options : Options) (h : Declares t p name scope) :
    ∃ site, (Knowledge.of options t).site? p = some site ∧ site.candidate = ⟨name, scope⟩ := by
  obtain ⟨n, hmet, hkind, hname⟩ := h.met
  obtain ⟨binding, hclassify⟩ := h.binds
  let site : Site := ⟨p, ⟨name, scope⟩, binding == .parameter true⟩
  have hsite : site? t ⟨p, n⟩ = some site :=
    site?_eq_some_iff.mpr ⟨hkind, hname, rfl, binding, hclassify, rfl⟩
  have hmem : site ∈ sites t := mem_sites_iff.mpr ⟨n, hmet, hsite⟩
  exact ⟨site, (Knowledge.site?_eq_some_iff (sites_of options t)).mpr ⟨hmem, rfl⟩, rfl⟩

theorem Declares.mem_candidates (h : Declares t p name scope) :
    ⟨name, scope⟩ ∈ candidates (sites t) := by
  obtain ⟨site, hsite, hcandidate⟩ := h.exists_site {}
  have hmem := ((Knowledge.site?_eq_some_iff (sites_of _ t)).mp hsite).1
  rw [← hcandidate]
  exact List.mem_eraseDups.mpr (List.mem_map_of_mem hmem)

theorem Declares.nameAt? (h : Declares t p name scope) : t.nameAt? p = some name := by
  obtain ⟨n, hmet, _, hname⟩ := h.met
  rw [Node.nameAt?, at?_of_met? hmet]
  exact hname

/-- What becomes of a declaration: the name that its candidate was given is written into it. -/
theorem Declares.changes_eq (h : Declares t p name scope) :
    (Knowledge.of options t).changes ((Knowledge.of options t).effect Scope.resolve t) t.positions p
      = (generated? (mangle options t).2.assignments ⟨name, scope⟩).map .renamed := by
  obtain ⟨n, hmet, _, _⟩ := h.met
  obtain ⟨site, hsite, hcandidate⟩ := h.exists_site options
  have hmem : p ∈ t.positions := mem_positions_iff.mpr ⟨n, hmet⟩
  rw [Knowledge.changes_of_site hsite, Knowledge.given?_of_site hsite (by simp [hmem]), hcandidate]
  rfl

theorem nameAt?_of_declares (h : Declares t p name scope) :
    (mangle options t).1.nameAt? p
      = (generated? (mangle options t).2.assignments ⟨name, scope⟩).or (some name) := by
  obtain ⟨n, hmet, _, hname⟩ := h.met
  rw [nameAt?_mangle (at?_of_met? hmet), h.changes_eq, name?_revise_map, hname]

/-- A declaration that is not excluded has the name that its candidate was given. -/
theorem Declares.exists_generated (h : Declares t p name scope) (hname : name ∉ options.reserved) :
    ∃ generated, generated? (mangle options t).2.assignments ⟨name, scope⟩ = some generated ∧
      (mangle options t).1.nameAt? p = some generated := by
  obtain ⟨generated, hgenerated⟩ := exists_generated? options (census t) h.mem_candidates hname
  refine ⟨generated, hgenerated, ?_⟩
  rw [nameAt?_of_declares h]
  exact congrArg (Option.or · (some name)) hgenerated

/-- **Names of declarations.** Two declarations that are not excluded have the same name afterwards iff they
had the same name and the same owner, and each was renamed. Excluded declarations are as they
were. -/
theorem declarations_same_name_iff (options : Options) (t : Node) :
    (∀ p q name name' scope scope', Declares t p name scope → Declares t q name' scope' →
      name ∉ options.reserved → name' ∉ options.reserved →
      ((mangle options t).1.nameAt? p = (mangle options t).1.nameAt? q ↔
        name = name' ∧ scope = scope')) ∧
    (∀ p name scope, Declares t p name scope → name ∉ options.reserved →
      (mangle options t).1.nameAt? p ≠ t.nameAt? p) ∧
    (∀ p name scope, Declares t p name scope → name ∈ options.reserved →
      (mangle options t).1.sketch p = t.sketch p) := by
  refine ⟨?_, ?_, ?_⟩
  · intro p q name name' scope scope' hp hq hname hname'
    obtain ⟨generated, hgenerated, hafter⟩ := hp.exists_generated hname
    obtain ⟨generated', hgenerated', hafter'⟩ := hq.exists_generated hname'
    rw [hafter, hafter', Option.some.injEq]
    constructor
    · rintro rfl
      have hsame := generated?_injective hgenerated hgenerated'
      rwa [Candidate.mk.injEq] at hsame
    · rintro ⟨rfl, rfl⟩
      rw [hgenerated] at hgenerated'
      exact Option.some.inj hgenerated'
  · intro p name scope hp hname
    obtain ⟨generated, hgenerated, hafter⟩ := hp.exists_generated hname
    obtain ⟨n, hmet, hkind, hold⟩ := hp.met
    -- The old name is in the census, the new one is not.
    have hold' : name ∈ census t := mem_census hmet (by simp [isNamed, hkind]) hold
    rw [hafter, hp.nameAt?, ne_eq, Option.some.injEq]
    rintro rfl
    exact generated?_not_mem_census hgenerated hold'
  · intro p name scope hp hname
    have hnone : generated? (mangle options t).2.assignments ⟨name, scope⟩ = none :=
      generated?_of_excluded hname
    have hsketch := (tracks_mangle options t).tree p
    rw [hp.changes_eq, hnone] at hsketch
    exact hsketch.trans Option.map_id'

/-- `var x; var x; function f(x) { }` -/
def redeclaring : Node :=
  ⟨.program, [("body", .list
    [some (declaring "var" "x"), some (declaring "var" "x"),
     some ⟨.functionDeclaration,
      [("id", .child (Expression.identifier "f")),
       ("params", .list [some (Expression.identifier "x")]),
       ("body", .child ⟨.blockStatement, [("body", .list [])]⟩)]⟩])]⟩

/-- The two variables are one binding and the parameter is another; the function is excluded. -/
theorem declarations_same_name_iff_redeclaring :
    (mangle { reserved := ["f"] } redeclaring).1.nameAt?
        [⟨"body", some 0⟩, ⟨"declarations", some 0⟩, ⟨"id", none⟩]
      = (mangle { reserved := ["f"] } redeclaring).1.nameAt?
        [⟨"body", some 1⟩, ⟨"declarations", some 0⟩, ⟨"id", none⟩] ∧
    (mangle { reserved := ["f"] } redeclaring).1.nameAt?
        [⟨"body", some 0⟩, ⟨"declarations", some 0⟩, ⟨"id", none⟩]
      ≠ (mangle { reserved := ["f"] } redeclaring).1.nameAt?
        [⟨"body", some 2⟩, ⟨"params", some 0⟩] ∧
    (mangle { reserved := ["f"] } redeclaring).1.nameAt?
        [⟨"body", some 2⟩, ⟨"params", some 0⟩] ≠ some "x" ∧
    (mangle { reserved := ["f"] } redeclaring).1.sketch [⟨"body", some 2⟩, ⟨"id", none⟩]
      = redeclaring.sketch [⟨"body", some 2⟩, ⟨"id", none⟩] := by
  have hfirst : Declares redeclaring [⟨"body", some 0⟩, ⟨"declarations", some 0⟩, ⟨"id", none⟩] "x" [] :=
    ⟨⟨_, rfl, rfl, rfl⟩, .declarator, by decide +kernel⟩
  have hsecond : Declares redeclaring [⟨"body", some 1⟩, ⟨"declarations", some 0⟩, ⟨"id", none⟩] "x" [] :=
    ⟨⟨_, rfl, rfl, rfl⟩, .declarator, by decide +kernel⟩
  have hparameter : Declares redeclaring [⟨"body", some 2⟩, ⟨"params", some 0⟩] "x" [⟨"body", some 2⟩] :=
    ⟨⟨_, rfl, rfl, rfl⟩, .parameter true, by decide +kernel⟩
  have hfunction : Declares redeclaring [⟨"body", some 2⟩, ⟨"id", none⟩] "f" [] :=
    ⟨⟨_, rfl, rfl, rfl⟩, .declaration, by decide +kernel⟩
  obtain ⟨hiff, hrenamed, hkept⟩ := declarations_same_name_iff { reserved := ["f"] } redeclaring
  refine ⟨?_, ?_, ?_, hkept _ _ _ hfunction (by decide)⟩
  · exact (hiff _ _ _ _ _ _ hfirst hsecond (by decide) (by decide)).mpr ⟨rfl, rfl⟩
  · intro hsame
    have := (hiff _ _ _ _ _ _ hfirst hparameter (by decide) (by decide)).mp hsame
    exact absurd this.2 (by decide)
  · exact hrenamed _ _ _ hparameter (by decide)

end Minifier.Mangle
