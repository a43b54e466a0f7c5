import Minifier.Expression
import Minifier.Proofs.Mangle.Resolution

/-!
# References follow what they refer to

What mangling does to references, in terms of the scopes of the original tree and of the mangled one.

* **Soundness** (`references_sound`). A reference that takes another name referred to a binding that took
  the same one, and refers to it still, unless it is captured by a binding that no traversal meets.
* **Completeness** (`references_follow_iff`). A reference and what it refers to have the same name
  afterwards, unless it refers to a whole parameter that is renamed and that a traversal meets only
  after the reference.

While a reference is resolved its slot is empty, so that a binding below the reference itself is not
found. A switch is the only node that looks that far down, into an identifier among its cases.
-/

namespace Minifier.Mangle

open Node

variable {options : Options} {t : Node} {q : Path} {n : Node}

/-! ## Names after the run -/

theorem sites_of (options : Options) (t : Node) : (Knowledge.of options t).sites = sites t := rfl

/-- The changes that a run makes altogether. -/
theorem tracks_mangle (options : Options) (t : Node) :
    Tracks t
      ((Knowledge.of options t).changes ((Knowledge.of options t).effect Scope.resolve t) t.positions)
      ((Knowledge.of options t).former t.positions)
      (referAll (Knowledge.of options t) Scope.resolve (declareAll (Knowledge.of options t) t)) :=
  tracks_referAll (sites_of options t) Scope.resolve

theorem nameAt?_mangle (hq : t.at? q = some n) :
    (mangle options t).1.nameAt? q
      = (revise n ((Knowledge.of options t).changes
          ((Knowledge.of options t).effect Scope.resolve t) t.positions q)).name? := by
  obtain ⟨m, hm, hout⟩ := (tracks_mangle options t).at? hq
  show (Node.at? _ q).bind _ = _
  rw [show (mangle options t).1.at? q = some m from hm, Option.bind_some, ← name?_outline, hout,
    name?_revise_outline]

theorem name?_revise_map (n : Node) (name : Option String) :
    (revise n (name.map .renamed)).name? = name.or n.name? := by
  cases name <;> simp

theorem site?_eq_none_iff : (Knowledge.of options t).site? q = none ↔ q ∉ (sites t).map (·.path) := by
  rw [Knowledge.site?, List.find?_eq_none, List.mem_map, sites_of]
  simp

theorem site?_of_not_mem_positions (hunmet : q ∉ t.positions) :
    (Knowledge.of options t).site? q = none := by
  cases hsite : (Knowledge.of options t).site? q with
  | none => rfl
  | some site =>
      obtain ⟨m, hmet, _⟩ := Knowledge.node_of_site? (sites_of options t) hsite
      exact absurd (mem_positions_iff.mpr ⟨m, hmet⟩) hunmet

/-- Where no traversal comes, nothing changes. -/
theorem nameAt?_of_not_mem_positions (hq : t.at? q = some n) (hunmet : q ∉ t.positions) :
    (mangle options t).1.nameAt? q = n.name? := by
  rw [nameAt?_mangle hq]
  simp [Knowledge.changes, site?_of_not_mem_positions hunmet, hunmet]

/-- The name of a reference afterwards. -/
theorem nameAt?_of_reference (ht : t.Regular) (hq : t.met? q = some n) (hn : isNamed n = true)
    {name : String} (hname : n.name? = some name) (hsite : (Knowledge.of options t).site? q = none)
    (hout : Scope.LooksOut t q) :
    (mangle options t).1.nameAt? q
      = ((if Scope.isRenamable n.kind name (t.ancestors q) then
          (Scope.find? (t.ancestors q) name).bind fun b =>
            (Knowledge.of options t).given? (metBefore t q) b.path
        else none).or (some name)) := by
  rw [nameAt?_mangle (at?_of_met? hq),
    Knowledge.changes_of_no_site hsite (mem_positions_iff.mpr ⟨n, hq⟩),
    effect_eq (sites_of options t) ht hq hsite hn hname hout, name?_revise_map, hname]

theorem nameAt?_of_nameless (hq : t.met? q = some n) (hname : n.name? = none)
    (hsite : (Knowledge.of options t).site? q = none) : (mangle options t).1.nameAt? q = none := by
  rw [nameAt?_mangle (at?_of_met? hq),
    Knowledge.changes_of_no_site hsite (mem_positions_iff.mpr ⟨n, hq⟩)]
  cases heffect : (Knowledge.of options t).effect Scope.resolve t q with
  | none => exact hname
  | some change =>
      cases change with
      | expanded => rw [name?_revise_expanded, hname]
      | renamed name =>
          have hnamed := (isNamed_of_effect (sites_of options t) hq hsite heffect).2
          rw [hname] at hnamed
          cases hnamed

theorem nameAt?_of_visible (ht : t.Regular) (hq : t.met? q = some n) {b : Occurrence}
    (hb : b ∈ Scope.visible (t.ancestors q)) (hkind : b.node.kind = .identifier) :
    (mangle options t).1.nameAt? b.path
      = ((Knowledge.of options t).given? t.positions b.path).or b.node.name? := by
  rw [nameAt?_mangle (Scope.holds_of_mem_visible hb)]
  exact changes_of_visible (sites_of options t) ht (keeps_effect (sites_of options t) _)
    (fun r hr => hr) hq hb hkind

/-! ## Given names -/

theorem given?_eq_some_iff {k : Knowledge} {done : List Path} {name : String} :
    k.given? done q = some name ↔
      ∃ site, k.site? q = some site ∧ (site.direct = false ∨ q ∈ done) ∧
        generated? k.assignments site.candidate = some name := by
  unfold Knowledge.given?
  rw [Option.bind_eq_some_iff]
  refine exists_congr fun site => and_congr_right fun _ => ?_
  cases site.direct <;> by_cases hdone : q ∈ done <;> simp [hdone]

theorem given?_of_not_mem_positions {done : List Path} (hunmet : q ∉ t.positions) :
    (Knowledge.of options t).given? done q = none := by
  rw [Knowledge.given?, site?_of_not_mem_positions hunmet, Option.bind_none]

/-- A name that was given at some moment of the run is the name in the end. -/
theorem given?_positions {done : List Path} {name : String}
    (h : (Knowledge.of options t).given? done q = some name) :
    (Knowledge.of options t).given? t.positions q = some name := by
  obtain ⟨site, hsite, _, hgenerated⟩ := given?_eq_some_iff.mp h
  obtain ⟨m, hmet, _⟩ := Knowledge.node_of_site? (sites_of options t) hsite
  exact given?_eq_some_iff.mpr
    ⟨site, hsite, .inr (mem_positions_iff.mpr ⟨m, hmet⟩), hgenerated⟩

/-- The census has the names of the identifiers that a traversal meets. -/
theorem mem_census_iff {name : String} :
    name ∈ census t ↔ ∃ o ∈ t.occurrences, isNamed o.node = true ∧ o.node.name? = some name := by
  unfold census
  rw [List.mem_filterMap]
  refine exists_congr fun o => and_congr_right fun _ => ?_
  cases isNamed o.node <;> simp

theorem mem_census (hq : t.met? q = some n) (hn : isNamed n = true) {name : String}
    (hname : n.name? = some name) : name ∈ census t :=
  mem_census_iff.mpr ⟨⟨q, n⟩, mem_occurrences_iff.mpr hq, hn, hname⟩

/-- A given name is met nowhere in the original tree. -/
theorem ne_of_given? {done : List Path} {r : Path} {generated name : String}
    (h : (Knowledge.of options t).given? done r = some generated) (hq : t.met? q = some n)
    (hn : isNamed n = true) (hname : n.name? = some name) : generated ≠ name := by
  obtain ⟨site, _, _, hgenerated⟩ := given?_eq_some_iff.mp h
  rintro rfl
  exact generated?_not_mem_census hgenerated (mem_census hq hn hname)

/-- Bindings that were given the same name had the same name. -/
theorem name?_eq_of_given? {done done' : List Path} {b b' : Occurrence} {generated : String}
    (hb : t.Holds b) (hb' : t.Holds b')
    (h : (Knowledge.of options t).given? done b.path = some generated)
    (h' : (Knowledge.of options t).given? done' b'.path = some generated) :
    b.node.name? = b'.node.name? := by
  obtain ⟨site, hsite, _, hgenerated⟩ := given?_eq_some_iff.mp h
  obtain ⟨site', hsite', _, hgenerated'⟩ := given?_eq_some_iff.mp h'
  rw [(name?_of_site (sites_of options t) hb hsite).2,
    (name?_of_site (sites_of options t) hb' hsite').2,
    show site.candidate = site'.candidate from generated?_injective hgenerated hgenerated']

/-! ## Looking up in the mangled tree -/

/-- A search in the mangled tree is a search in the original one, by the names that the bindings have
afterwards. -/
theorem find?_mangle (ht : t.Regular) (hq : t.met? q = some n) (name : String) :
    (Scope.find? ((mangle options t).1.ancestors q) name).map (·.path)
      = ((Scope.visible (t.ancestors q)).find? fun b =>
          b.node.kind == .identifier &&
            ((Knowledge.of options t).given? t.positions b.path).or b.node.name? == some name).map
          (·.path) := by
  have hresembles : t.Resembles Alike none (mangle options t).1 := (tracks_mangle options t).resembles
  have hsimilar := similar_ancestors_of_gap hresembles (at?_of_met? hq) fun r hr => nomatch hr
  rw [Scope.find?, ← findSome?_ite, ← findSome?_ite]
  refine (thinned_visible hsimilar).findSome?_eq (fun b hb b' hb' hbb' => ?_)
    fun b _ hconc => absurd hconc (not_concealed_none _)
  rw [hbb'.path, Node.isIdentifierNamed, hbb'.alike.kind]
  by_cases hkind : b.node.kind = .identifier
  · have hname : b'.node.name? = (mangle options t).1.nameAt? b.path := by
      rw [Node.nameAt?, ← hbb'.path, show (mangle options t).1.at? b'.path = some b'.node from
        Scope.holds_of_mem_visible hb', Option.bind_some]
    rw [hname, nameAt?_of_visible ht hq hb hkind]
  · rw [beq_false_of_ne hkind, Bool.false_and, Bool.false_and]

/-- What is looked at before the binding that is found: other positions, and no match. -/
theorem exists_of_find? {name : String} {b : Occurrence}
    (h : Scope.find? (t.ancestors q) name = some b) :
    ∃ back, Scope.visible (t.ancestors q)
        = (Scope.visible (t.ancestors q)).takeWhile (·.path ≠ b.path) ++ b :: back ∧
      ∀ c ∈ (Scope.visible (t.ancestors q)).takeWhile (·.path ≠ b.path),
        c.node.isIdentifierNamed name = false := by
  obtain ⟨hnamed, front, back, hsplit, hfront⟩ := List.find?_eq_some_iff_append.mp h
  have hpath : ∀ c ∈ front, decide (c.path ≠ b.path) = true := by
    intro c hc
    rw [decide_eq_true_eq]
    intro heq
    -- The same position holds the same node, which matches.
    have hcholds : t.at? c.path = some c.node :=
      Scope.holds_of_mem_visible (by rw [hsplit]; exact List.mem_append_left _ hc)
    have hbholds : t.at? b.path = some b.node :=
      Scope.holds_of_mem_visible (by rw [hsplit]; simp)
    rw [heq, hbholds] at hcholds
    have hnot := hfront c hc
    rw [← Option.some.inj hcholds, hnamed] at hnot
    cases hnot
  have htake : (Scope.visible (t.ancestors q)).takeWhile (·.path ≠ b.path) = front := by
    rw [hsplit, List.takeWhile_append_of_pos hpath, List.takeWhile_cons_of_neg (by simp),
      List.append_nil]
  refine ⟨back, by rw [htake]; exact hsplit, fun c hc => ?_⟩
  rw [htake] at hc
  simpa using hfront c hc

/-- No binding that is looked at before a position has the name, among those that no traversal meets. -/
def Uncaptured (t : Node) (q d : Path) (name : Option String) : Prop :=
  ∀ c ∈ (Scope.visible (t.ancestors q)).takeWhile (·.path ≠ d), c.path ∉ t.positions →
    c.node.kind = .identifier → c.node.name? ≠ name

instance (t : Node) (q d : Path) (name : Option String) : Decidable (Uncaptured t q d name) :=
  inferInstanceAs (Decidable (∀ c ∈ List.takeWhile _ _, _))

/-- **What a renamed reference refers to afterwards.** The search stops at the same binding, unless it is
captured by one that no traversal meets: the names of all others are either not generated, or were
given to bindings that had another name before. -/
theorem lookup?_mangle_iff (ht : t.Regular) (hq : t.met? q = some n) {name generated : String}
    {b : Occurrence} (hfind : Scope.find? (t.ancestors q) name = some b)
    (hgiven : (Knowledge.of options t).given? t.positions b.path = some generated)
    (hafter : (mangle options t).1.nameAt? q = some generated) :
    Scope.lookup? (mangle options t).1 q = some b.path ↔
      Uncaptured t q b.path (some generated) := by
  obtain ⟨hbvisible, hkind, hbname⟩ := Scope.mem_of_find? hfind
  obtain ⟨back, hsplit, hfront⟩ := exists_of_find? hfind
  rw [Scope.lookup?, hafter, Option.bind_some, find?_mangle ht hq]
  constructor
  · intro hlookup c hc hunmet hckind hcname
    obtain ⟨c', hfound, hpath⟩ := Option.map_eq_some_iff.mp hlookup
    rw [hsplit, List.find?_append] at hfound
    -- The binding matches, so that the search stops at it or before it.
    have hmatch : ∃ c'', ((Scope.visible (t.ancestors q)).takeWhile (·.path ≠ b.path)).find?
        (fun b => b.node.kind == .identifier &&
          ((Knowledge.of options t).given? t.positions b.path).or b.node.name? == some generated)
          = some c'' := by
      rw [← Option.isSome_iff_exists, List.find?_isSome]
      exact ⟨c, hc, by simp [hckind, given?_of_not_mem_positions hunmet, hcname]⟩
    obtain ⟨c'', hc''⟩ := hmatch
    rw [hc'', Option.some_or] at hfound
    cases hfound
    have hne := List.mem_takeWhile_imp (List.mem_of_find?_eq_some hc'')
    simp [hpath] at hne
  · intro hclear
    refine Option.map_eq_some_iff.mpr
      ⟨b, List.find?_eq_some_iff_append.mpr ⟨by simp [hkind, hgiven], _, back, hsplit, ?_⟩, rfl⟩
    -- Suppose that an earlier binding has the generated name.
    intro c hc
    have hcvisible : c ∈ Scope.visible (t.ancestors q) := (List.takeWhile_sublist _).subset hc
    have hnot := hfront c hc
    by_contra hfound
    simp only [Bool.not_eq_true', Bool.and_eq_true, beq_iff_eq, Bool.not_eq_false] at hfound
    obtain ⟨hckind, hcname⟩ := hfound
    cases hcgiven : (Knowledge.of options t).given? t.positions c.path with
    | some other =>
        -- A binding that was given the same name had the same name before.
        rw [hcgiven, Option.some_or] at hcname
        cases hcname
        have hsame := name?_eq_of_given? (Scope.holds_of_mem_visible hcvisible)
          (Scope.holds_of_mem_visible hbvisible) hcgiven hgiven
        rw [hbname] at hsame
        simp [Node.isIdentifierNamed, hckind, hsame] at hnot
    | none =>
        rw [hcgiven, Option.none_or] at hcname
        by_cases hmet : c.path ∈ t.positions
        · -- A generated name is met nowhere in the original tree.
          obtain ⟨m, hm⟩ := mem_positions_iff.mp hmet
          obtain rfl := eq_of_met? hm (Scope.holds_of_mem_visible hcvisible)
          exact ne_of_given? hgiven hm (by simp [isNamed, hckind]) hcname rfl
        · exact hclear c hc hmet hckind hcname

/-! ## Soundness -/

/-- A reference has the name of what it refers to. -/
theorem nameAt?_of_lookup? {d : Path} (h : Scope.lookup? t q = some d) :
    t.nameAt? d = t.nameAt? q := by
  obtain ⟨name, hname, hfound⟩ := Option.bind_eq_some_iff.mp h
  obtain ⟨b, hfind, rfl⟩ := Option.map_eq_some_iff.mp hfound
  obtain ⟨hvisible, _, hbname⟩ := Scope.mem_of_find? hfind
  have hholds : t.at? b.path = some b.node := Scope.holds_of_mem_visible hvisible
  rw [hname, Node.nameAt?, hholds, Option.bind_some, hbname]

/-- A reference that has another name afterwards found its binding renamed. -/
theorem given?_of_renamed (ht : t.Regular) (hq : t.met? q = some n) (hn : isNamed n = true)
    {name : String} (hname : n.name? = some name) (hsite : (Knowledge.of options t).site? q = none)
    (hout : Scope.LooksOut t q) (hchanged : (mangle options t).1.nameAt? q ≠ some name) :
    ∃ b generated, Scope.find? (t.ancestors q) name = some b ∧
      (Knowledge.of options t).given? (metBefore t q) b.path = some generated ∧
      (mangle options t).1.nameAt? q = some generated := by
  have hafter : (mangle options t).1.nameAt? q = _ :=
    nameAt?_of_reference ht hq hn hname hsite hout
  rw [hafter] at hchanged ⊢
  split at hchanged
  · rename_i hrenamable
    rw [if_pos hrenamable]
    cases hfind : Scope.find? (t.ancestors q) name with
    | none =>
        rw [hfind] at hchanged
        exact absurd rfl hchanged
    | some b =>
        cases hgiven : (Knowledge.of options t).given? (metBefore t q) b.path with
        | none =>
            rw [hfind, Option.bind_some, hgiven] at hchanged
            exact absurd rfl hchanged
        | some generated =>
            exact ⟨b, generated, rfl, hgiven, by rw [Option.bind_some, hgiven, Option.some_or]⟩
  · exact absurd rfl hchanged

/-- **Soundness of renaming.** If an identifier that is no declaration has another name afterwards, it
referred to a binding. Unless that lies below the identifier itself, it was renamed, the identifier has
the name of it, and refers to it still iff it is not captured by a binding that no traversal meets. An
identifier that is met and has the name that it had does not have a generated one. -/
theorem references_sound (options : Options) (t : Node) (ht : t.Regular) :
    (∀ p n, t.at? p = some n → isNamed n = true → p ∉ (sites t).map (·.path) →
      (mangle options t).1.nameAt? p ≠ t.nameAt? p →
      ∃ d, Scope.lookup? t p = some d ∧
        ((p <+: d ∧ d ≠ p) ∨
          ((mangle options t).1.nameAt? d ≠ t.nameAt? d ∧
            (mangle options t).1.nameAt? p = (mangle options t).1.nameAt? d ∧
            (Scope.lookup? (mangle options t).1 p = some d ↔
              Uncaptured t p d ((mangle options t).1.nameAt? p))))) ∧
    (∀ o ∈ t.occurrences, isNamed o.node = true →
      (mangle options t).1.nameAt? o.path = t.nameAt? o.path →
      ∀ a ∈ (mangle options t).2.assignments,
        (mangle options t).1.nameAt? o.path ≠ some a.generated) := by
  constructor
  · intro p n hp hn hnosite hchanged
    have hbefore : t.nameAt? p = n.name? := by rw [Node.nameAt?, hp, Option.bind_some]
    have hsite : (Knowledge.of options t).site? p = none := site?_eq_none_iff.mpr hnosite
    by_cases hmem : p ∈ t.positions
    · obtain ⟨m, hmet⟩ := mem_positions_iff.mp hmem
      obtain rfl := eq_of_met? hmet hp
      cases hname : n.name? with
      | none =>
          have hafter := nameAt?_of_nameless hmet hname hsite
          exact absurd (hafter.trans (hbefore.trans hname).symm) hchanged
      | some name =>
          by_cases hout : Scope.LooksOut t p
          · obtain ⟨b, generated, hfind, hgiven, hafter⟩ :=
              given?_of_renamed ht hmet hn hname hsite hout (hname ▸ hbefore ▸ hchanged)
            obtain ⟨hvisible, hkind, hbname⟩ := Scope.mem_of_find? hfind
            have hlast := given?_positions hgiven
            have hbafter : (mangle options t).1.nameAt? b.path = some generated := by
              rw [nameAt?_of_visible ht hmet hvisible hkind, hlast, Option.some_or]
            have hlookup := Scope.lookup?_of_find? hp hname hfind
            refine ⟨b.path, hlookup, .inr ⟨?_, hafter.trans hbafter.symm, ?_⟩⟩
            · rw [hbafter, nameAt?_of_lookup? hlookup, hbefore, hname]
              exact fun heq => ne_of_given? hgiven hmet hn hname (Option.some.inj heq)
            · rw [hafter]
              exact lookup?_mangle_iff ht hmet hfind hlast hafter
          · -- Then it refers to something, which lies below.
            simp only [Scope.LooksOut, not_forall] at hout
            obtain ⟨d, hd, hpre, hne⟩ := hout
            exact ⟨d, hd, .inl ⟨hpre, hne⟩⟩
    · exact absurd ((nameAt?_of_not_mem_positions hp hmem).trans hbefore.symm) hchanged
  · intro o ho hn hsame a ha heq
    have hmet := mem_occurrences_iff.mp ho
    rw [hsame, Node.nameAt?, at?_of_met? hmet, Option.bind_some] at heq
    have havoided := contains_of_mem_assignFrom ha
    simp [Taken.contains, Taken.of, mem_census hmet hn heq] at havoided

/-- By default the first generated names are `L`, `o` and `h`. -/
theorem Knowledge.of_default (t : Node) :
    Knowledge.of {} t =
      ⟨Mangle.sites t,
        assignFrom (.of {} (census t) (candidates (Mangle.sites t)))
          ⟨"LohdPITtAlMwJSzBrRejkaxpmQNYqGcvXynfKWHDOVFbsuZgUiEC".toList, 0⟩
          (candidates (Mangle.sites t))⟩ := by
  unfold Knowledge.of assign Naming.Generator.ofSeed
  rw [Naming.alphabet_zero]

/-- A declaration of one variable. -/
def declaring (kind name : String) : Node :=
  ⟨.variableDeclaration, [("kind", .value (.string kind)), ("declarations", .list
    [some ⟨.variableDeclarator, [("id", .child (Expression.identifier name))]⟩])]⟩

/-- `var x; function f(x) { x; }` -/
def shadowing : Node :=
  ⟨.program, [("body", .list
    [some (declaring "var" "x"),
     some ⟨.functionDeclaration,
      [("id", .child (Expression.identifier "f")),
       ("params", .list [some (Expression.identifier "x")]),
       ("body", .child ⟨.blockStatement, [("body", .list
         [some ⟨.expressionStatement, [("expression", .child (Expression.identifier "x"))]⟩])]⟩)]⟩])]⟩

/-- The reference in the function refers to the parameter, before and afterwards. -/
theorem references_sound_shadowing :
    shadowing.Regular ∧
      Scope.lookup? shadowing
          [⟨"body", some 1⟩, ⟨"body", none⟩, ⟨"body", some 0⟩, ⟨"expression", none⟩]
        = some [⟨"body", some 1⟩, ⟨"params", some 0⟩] ∧
      (mangle {} shadowing).1.nameAt?
          [⟨"body", some 1⟩, ⟨"body", none⟩, ⟨"body", some 0⟩, ⟨"expression", none⟩]
        = (mangle {} shadowing).1.nameAt? [⟨"body", some 1⟩, ⟨"params", some 0⟩] ∧
      Scope.lookup? (mangle {} shadowing).1
          [⟨"body", some 1⟩, ⟨"body", none⟩, ⟨"body", some 0⟩, ⟨"expression", none⟩]
        = some [⟨"body", some 1⟩, ⟨"params", some 0⟩] := by
  have hregular : shadowing.Regular := by decide +kernel
  have hlookup : Scope.lookup? shadowing
      [⟨"body", some 1⟩, ⟨"body", none⟩, ⟨"body", some 0⟩, ⟨"expression", none⟩]
        = some [⟨"body", some 1⟩, ⟨"params", some 0⟩] := by decide +kernel
  have hafter : (mangle {} shadowing).1.nameAt?
      [⟨"body", some 1⟩, ⟨"body", none⟩, ⟨"body", some 0⟩, ⟨"expression", none⟩] = some "h" := by
    unfold mangle mangleWith
    rw [Knowledge.of_default]
    decide +kernel
  obtain ⟨d, hd, hreason⟩ := (references_sound {} shadowing hregular).1
    [⟨"body", some 1⟩, ⟨"body", none⟩, ⟨"body", some 0⟩, ⟨"expression", none⟩]
    (Expression.identifier "x") rfl rfl (by decide +kernel) (by rw [hafter]; decide +kernel)
  rw [hlookup] at hd
  cases hd
  rcases hreason with hbelow | ⟨_, hsame, hstill⟩
  · exact absurd hbelow (by decide)
  · refine ⟨hregular, hlookup, hsame, hstill.mpr ?_⟩
    rw [hafter]
    decide +kernel

/-- `var x; (() => x)`, where the arrow function has the name `L`, which no traversal meets. -/
def capturing : Node :=
  ⟨.program, [("body", .list
    [some (declaring "var" "x"),
     some ⟨.expressionStatement, [("expression", .child ⟨.arrowFunctionExpression,
      [("id", .child (Expression.identifier "L")), ("params", .list []),
       ("body", .child (Expression.identifier "x"))]⟩)]⟩])]⟩

/-- `var x;` and a switch among whose cases stands the identifier `x`, with `let x;` below it. -/
def nested : Node :=
  ⟨.program, [("body", .list
    [some (declaring "var" "x"),
     some ⟨.switchStatement, [("cases", .list
      [some ⟨.identifier, [("name", .value (.string "x")),
        ("consequent", .list [some (declaring "let" "x")])]⟩])]⟩])]⟩

/-- **Neither exception can be left out.** In the first tree the renamed reference is captured by the name of
the arrow function, and in the second the binding that the reference refers to keeps its name. -/
theorem renamed_reference_captured :
    (capturing.Regular ∧
      [⟨"body", some 1⟩, ⟨"expression", none⟩, ⟨"body", none⟩] ∉ (sites capturing).map (·.path) ∧
      (mangle {} capturing).1.nameAt? [⟨"body", some 1⟩, ⟨"expression", none⟩, ⟨"body", none⟩]
        ≠ capturing.nameAt? [⟨"body", some 1⟩, ⟨"expression", none⟩, ⟨"body", none⟩] ∧
      Scope.lookup? (mangle {} capturing).1
          [⟨"body", some 1⟩, ⟨"expression", none⟩, ⟨"body", none⟩]
        ≠ Scope.lookup? capturing [⟨"body", some 1⟩, ⟨"expression", none⟩, ⟨"body", none⟩]) ∧
    (nested.Regular ∧
      [⟨"body", some 1⟩, ⟨"cases", some 0⟩] ∉ (sites nested).map (·.path) ∧
      (mangle {} nested).1.nameAt? [⟨"body", some 1⟩, ⟨"cases", some 0⟩]
        ≠ nested.nameAt? [⟨"body", some 1⟩, ⟨"cases", some 0⟩] ∧
      ∀ d, Scope.lookup? nested [⟨"body", some 1⟩, ⟨"cases", some 0⟩] = some d →
        (mangle {} nested).1.nameAt? d = nested.nameAt? d) := by
  unfold mangle mangleWith
  rw [Knowledge.of_default, Knowledge.of_default]
  constructor
  · decide +kernel
  · refine ⟨by decide +kernel, by decide +kernel, by decide +kernel, fun d hd => ?_⟩
    have hlookup : Scope.lookup? nested [⟨"body", some 1⟩, ⟨"cases", some 0⟩]
        = some [⟨"body", some 1⟩, ⟨"cases", some 0⟩, ⟨"consequent", some 0⟩,
          ⟨"declarations", some 0⟩, ⟨"id", none⟩] := by decide +kernel
    rw [hlookup] at hd
    cases hd
    decide +kernel

/-! ## Completeness -/

/-- The names of a reference and of what it refers to, afterwards. -/
theorem nameAt?_mangle_of_lookup? (options : Options) (ht : t.Regular) (hq : t.met? q = some n)
    (hn : isNamed n = true) {name : String} (hname : n.name? = some name)
    (hsite : (Knowledge.of options t).site? q = none) (hout : Scope.LooksOut t q)
    (hrenamable : Scope.isRenamable n.kind name (t.ancestors q) = true) {d : Path}
    (hd : Scope.lookup? t q = some d) :
    (mangle options t).1.nameAt? q
        = ((Knowledge.of options t).given? (metBefore t q) d).or (some name) ∧
      (mangle options t).1.nameAt? d
        = ((Knowledge.of options t).given? t.positions d).or (some name) := by
  rw [Scope.lookup?, Node.nameAt?, at?_of_met? hq, Option.bind_some, hname, Option.bind_some] at hd
  obtain ⟨b, hfind, rfl⟩ := Option.map_eq_some_iff.mp hd
  obtain ⟨hvisible, hkind, hbname⟩ := Scope.mem_of_find? hfind
  constructor
  · rw [nameAt?_of_reference ht hq hn hname hsite hout, if_pos hrenamable, hfind, Option.bind_some]
  · rw [nameAt?_of_visible ht hq hvisible hkind, hbname]

/-- What is renamed in the end is renamed by the time that a position is met, unless it is a whole
parameter that is met later. -/
theorem given?_metBefore_iff {options : Options} {d : Path} {generated : String}
    (h : (Knowledge.of options t).given? t.positions d = some generated) :
    (Knowledge.of options t).given? (metBefore t q) d = some generated ↔
      ¬ IsWholeParameter t d ∨ d ∈ metBefore t q := by
  obtain ⟨site, hsite, _, hgenerated⟩ := given?_eq_some_iff.mp h
  rw [← Knowledge.direct_of_site? (sites_of options t) hsite, Bool.not_eq_true]
  constructor
  · intro hgiven
    obtain ⟨site', hsite', hmoment, _⟩ := given?_eq_some_iff.mp hgiven
    rw [hsite] at hsite'
    cases hsite'
    exact hmoment
  · intro hmoment
    exact given?_eq_some_iff.mpr ⟨site, hsite, hmoment, hgenerated⟩

/-- **Completeness of renaming, and where it fails.** A reference that may be renamed has the name of what
it refers to iff that keeps its name, or the reference is met, and that is no whole parameter or is met
before. -/
theorem references_follow_iff (options : Options) (ht : t.Regular) (hq : t.at? q = some n)
    (hn : isNamed n = true) (hnosite : q ∉ (sites t).map (·.path)) {name : String}
    (hname : n.name? = some name)
    (hrenamable : Scope.isRenamable n.kind name (t.ancestors q) = true) {d : Path}
    (hd : Scope.lookup? t q = some d) (hout : q <+: d → d = q) :
    (mangle options t).1.nameAt? q = (mangle options t).1.nameAt? d ↔
      (mangle options t).1.nameAt? d = t.nameAt? d ∨
        (q ∈ t.positions ∧ (¬ IsWholeParameter t d ∨ d ∈ metBefore t q)) := by
  have hbefore : t.nameAt? d = some name := by
    rw [nameAt?_of_lookup? hd, Node.nameAt?, hq]
    exact hname
  by_cases hmem : q ∈ t.positions
  · obtain ⟨m, hmet⟩ := mem_positions_iff.mp hmem
    obtain rfl := eq_of_met? hmet hq
    have hout : Scope.LooksOut t q := by
      intro d' hd' hpre
      rw [hd] at hd'
      cases hd'
      exact hout hpre
    obtain ⟨hafter, hdafter⟩ := nameAt?_mangle_of_lookup? options ht hmet hn hname
      (site?_eq_none_iff.mpr hnosite) hout hrenamable hd
    rw [hafter, hdafter, hbefore]
    cases hlast : (Knowledge.of options t).given? t.positions d with
    | none =>
        -- What keeps its name is not renamed by then either.
        have hthen : (Knowledge.of options t).given? (metBefore t q) d = none := by
          cases hgiven : (Knowledge.of options t).given? (metBefore t q) d with
          | none => rfl
          | some generated =>
              rw [given?_positions hgiven] at hlast
              cases hlast
        simp [hthen]
    | some generated =>
        have hne : generated ≠ name := ne_of_given? hlast hmet hn hname
        rw [← given?_metBefore_iff hlast, Option.some_or]
        cases hgiven : (Knowledge.of options t).given? (metBefore t q) d with
        | none => simp [hne, hne.symm]
        | some other =>
            rw [given?_positions hgiven] at hlast
            cases hlast
            simp [hmem]
  · -- Where no traversal comes, the name is kept.
    rw [nameAt?_of_not_mem_positions hq hmem, hname, hbefore]
    simp [hmem, eq_comm]

/-- `function f(a = b, b) { }` -/
def lateParameter : Node :=
  ⟨.program, [("body", .list
    [some ⟨.functionDeclaration,
      [("id", .child (Expression.identifier "f")),
       ("params", .list
        [some ⟨.assignmentPattern, [("left", .child (Expression.identifier "a")),
          ("right", .child (Expression.identifier "b"))]⟩,
         some (Expression.identifier "b")]),
       ("body", .child ⟨.blockStatement, [("body", .list [])]⟩)]⟩])]⟩

/-- The default value of the first parameter refers to the second, and does not take its name. -/
theorem references_follow_iff_lateParameter :
    lateParameter.Regular ∧
      Scope.lookup? lateParameter [⟨"body", some 0⟩, ⟨"params", some 0⟩, ⟨"right", none⟩]
        = some [⟨"body", some 0⟩, ⟨"params", some 1⟩] ∧
      (mangle {} lateParameter).1.nameAt? [⟨"body", some 0⟩, ⟨"params", some 0⟩, ⟨"right", none⟩]
        ≠ (mangle {} lateParameter).1.nameAt? [⟨"body", some 0⟩, ⟨"params", some 1⟩] := by
  have hregular : lateParameter.Regular := by decide +kernel
  have hlookup : Scope.lookup? lateParameter
      [⟨"body", some 0⟩, ⟨"params", some 0⟩, ⟨"right", none⟩]
        = some [⟨"body", some 0⟩, ⟨"params", some 1⟩] := by decide +kernel
  refine ⟨hregular, hlookup, fun hsame => ?_⟩
  have hat : lateParameter.at? [⟨"body", some 0⟩, ⟨"params", some 0⟩, ⟨"right", none⟩]
      = some (Expression.identifier "b") := rfl
  have hreason := (references_follow_iff {} hregular hat rfl (by decide +kernel) rfl
    (by decide +kernel) hlookup (by decide)).mp hsame
  revert hreason
  unfold mangle mangleWith
  rw [Knowledge.of_default]
  decide +kernel

end Minifier.Mangle
