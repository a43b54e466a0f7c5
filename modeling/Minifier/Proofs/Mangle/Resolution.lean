import Minifier.Proofs.Mangle.Assignment
import Minifier.Proofs.Mangle.Progress

/-!
# Resolving references in a half-renamed tree

References are resolved while declarations are being renamed. `Scope.lookup?` says what an
identifier refers to in a tree as it stands: the first visible binding of the same name. Here the two
are compared. At the moment when a reference is resolved, the search stops at the binding that
the reference refers to in the original tree, and finds it renamed iff its declaration was
renamed by then (`resolve_eq_lookup`, `effect_eq`).

The reason is that bindings which are enumerated are declarations when looked at from below, so that
none is ever renamed as a reference (`changes_of_visible`).
-/

namespace Minifier

open Node

/-- The name that the node at a position carries. -/
def Node.nameAt? (t : Node) (p : Path) : Option String := (t.at? p).bind Node.name?

theorem Node.isIdentifierNamed_iff {n : Node} {name : String} :
    n.isIdentifierNamed name = true ↔ n.kind = .identifier ∧ n.name? = some name := by
  simp [Node.isIdentifierNamed]

namespace Scope

/-- The new name of the binding, if it was renamed. -/
def Resolution.name? : Resolution → Option String
  | .binding name => some name
  | _ => none

theorem isRenamable_of_isFixedBinding {kind : Kind} {name : String} {ancestors : List Ancestor}
    (h : isFixedBinding ancestors = true) : isRenamable kind name ancestors = false := by
  cases ancestors with
  | nil => rfl
  | cons parent above => rw [isRenamable, if_pos h]

/-- The first visible binding with a name. -/
def find? (ancestors : List Ancestor) (name : String) : Option Occurrence :=
  (visible ancestors).find? (·.node.isIdentifierNamed name)

theorem mem_of_find? {ancestors : List Ancestor} {name : String} {b : Occurrence}
    (h : find? ancestors name = some b) :
    b ∈ visible ancestors ∧ b.node.kind = .identifier ∧ b.node.name? = some name := by
  have hnamed := List.find?_some h
  exact ⟨List.mem_of_find?_eq_some h, Node.isIdentifierNamed_iff.mp hnamed⟩

/-- The position of what the identifier at a position refers to: the first visible binding that has the
same name. -/
def lookup? (t : Node) (p : Path) : Option Path :=
  (t.nameAt? p).bind fun name => (find? (t.ancestors p) name).map (·.path)

theorem lookup?_of_find? {t n : Node} {p : Path} {name : String} {b : Occurrence}
    (hp : t.at? p = some n) (hname : n.name? = some name)
    (h : find? (t.ancestors p) name = some b) : lookup? t p = some b.path := by
  rw [lookup?, Node.nameAt?, hp, Option.bind_some, hname, Option.bind_some, h]
  rfl

/-- What the identifier at a position refers to does not lie below it. -/
def LooksOut (t : Node) (p : Path) : Prop := ∀ d ∈ lookup? t p, p <+: d → d = p

end Scope

/-- A search through a thinned list, where what the search stops at was not dropped. -/
theorem Thinned.findSome?_eq {α : Type} {gap : Option Path} {l l' : List Occurrence}
    (h : Thinned gap l l') {f g : Occurrence → Option α}
    (hkeep : ∀ b ∈ l, ∀ b' ∈ l', b.Similar gap b' → g b' = f b)
    (hfirst : ∀ b, (l.find? fun b => (f b).isSome) = some b → ¬ Concealed gap b.path) :
    l'.findSome? g = l.findSome? f := by
  induction h with
  | nil => rfl
  | @keep b b' l l' h _ ih =>
      rw [List.findSome?_cons, List.findSome?_cons,
        hkeep _ List.mem_cons_self _ List.mem_cons_self h]
      cases hf : f b with
      | some a => rfl
      | none =>
          refine ih (fun b hb b' hb' => hkeep b (List.mem_cons_of_mem _ hb) b'
            (List.mem_cons_of_mem _ hb')) fun c hc => hfirst c ?_
          simpa [hf] using hc
  | @drop b l l' h _ ih =>
      rw [List.findSome?_cons]
      cases hf : f b with
      | some a => exact absurd h (hfirst b (by simp [hf]))
      | none =>
          refine ih (fun b hb b' hb' => hkeep b (List.mem_cons_of_mem _ hb) b' hb') fun c hc =>
            hfirst c ?_
          simpa [hf] using hc

/-- To search for a property and use what is found. -/
theorem findSome?_ite {α β : Type} (l : List α) (p : α → Bool) (f : α → β) :
    (l.findSome? fun a => if p a then some (f a) else none) = (l.find? p).map f := by
  induction l with
  | nil => rfl
  | cons a l ih =>
      rw [List.findSome?_cons, List.find?_cons, ih]
      cases p a <;> rfl

namespace Mangle

variable {t : Node} {p : Progress} {k : Knowledge}

/-! ## The identifier that is resolved -/

/-- While an identifier is resolved, the tree without it resembles the original one. -/
theorem Tracks.resembles_detach {changes : Path → Option Change} {former : Path → Option String}
    (h : Tracks t changes former p) {q : Path} (hne : q ≠ []) {m rest : Node}
    (hdetach : p.tree.detach q = some (m, rest)) : t.Resembles Alike (some q) rest :=
  h.resembles.trans (Node.resembles_detach hne hdetach).alike

/-- What a visit does to an identifier that is no site and not changed yet. -/
theorem target?_eq {changes : Path → Option Change} {former : Path → Option String}
    (h : Tracks t changes former p) (resolver : Scope.Resolver) {q : Path} {n m : Node}
    {name : String} (hq : t.at? q = some n) (hname : n.name? = some name) (hnone : changes q = none)
    (hm : p.tree.at? q = some m) :
    ∃ rest, p.tree.detach q = some (m, rest) ∧
      p.target? k resolver ⟨q, m⟩
        = if k.isAssigned name && Scope.isRenamable n.kind name (t.ancestors q) then
            (resolver (rest.ancestors q) name p.marks).name?
          else none := by
  obtain ⟨m', hm', hout⟩ := h.at?_unchanged hq hnone
  rw [hm] at hm'
  cases hm'
  have hmname : m.name? = some name := by rw [← name?_outline, hout, name?_outline, hname]
  have hmkind : m.kind = n.kind := by rw [← kind_outline, hout, kind_outline]
  obtain ⟨rest, hrest⟩ := exists_detach hm
  refine ⟨rest, hrest, ?_⟩
  have hrenamable : Scope.isRenamable m.kind name (rest.ancestors q)
      = Scope.isRenamable n.kind name (t.ancestors q) := by
    rw [hmkind]
    by_cases hne : q = []
    · subst hne
      rfl
    · exact Scope.isRenamable_eq (h.resembles_detach hne hrest) hq
        (fun r hr => (Option.some.inj hr).symm) _ _
  simp only [Progress.target?, hmname, hrest, Option.bind_eq_bind, Option.bind_some, hrenamable]
  rfl

/-! ## The bindings that are looked at -/

/-- Beside the sites, only what has a name takes another, and no fixed binding does. -/
def Keeps (t : Node) (k : Knowledge) (effect : Path → Option Change) : Prop :=
  ∀ q n name, t.met? q = some n → k.site? q = none → effect q = some (.renamed name) →
    n.name?.isSome = true ∧ Scope.isFixedBinding (t.ancestors q) = false

/-- What is enumerated and met is a site, or else it is never renamed. -/
theorem isFixedBinding_of_visible (hk : k.sites = sites t) (ht : t.Regular) {n : Node} {q : Path}
    (hq : t.met? q = some n) {b : Occurrence} (hb : b ∈ Scope.visible (t.ancestors q))
    (hmet : t.met? b.path = some b.node) (hkind : b.node.kind = .identifier) {name : String}
    (hname : b.node.name? = some name) (hsite : k.site? b.path = none) :
    Scope.isFixedBinding (t.ancestors b.path) = true := by
  rcases Scope.declares_of_mem_visible ht hq hb (mem_occurrences_iff.mpr hmet) with
    hclassify | hfixed
  · have hsome := Knowledge.isSome_site? hk hmet hkind hname hclassify
    rw [hsite] at hsome
    cases hsome
  · exact hfixed

/-- **Bindings are not renamed as references.** The name of a visible identifier in a changed tree is the
name that its declaration was given, or its name in the original tree. -/
theorem changes_of_visible (hk : k.sites = sites t) (ht : t.Regular)
    {effect : Path → Option Change} (heffect : Keeps t k effect) {done : List Path}
    (hdone : ∀ r ∈ done, r ∈ t.positions) {n : Node} {q : Path} (hq : t.met? q = some n)
    {b : Occurrence} (hb : b ∈ Scope.visible (t.ancestors q)) (hkind : b.node.kind = .identifier) :
    (revise b.node (k.changes effect done b.path)).name?
      = (k.given? done b.path).or b.node.name? := by
  have hbholds := Scope.holds_of_mem_visible hb
  cases hsite : k.site? b.path with
  | some site =>
      rw [Knowledge.changes_of_site hsite]
      cases k.given? done b.path with
      | none => rfl
      | some name => simp
  | none =>
      have hgiven : k.given? done b.path = none := by simp [Knowledge.given?, hsite]
      rw [hgiven, Option.none_or]
      unfold Knowledge.changes
      rw [hsite, Option.isSome_none, if_neg Bool.false_ne_true]
      split
      · rename_i hmem
        cases hchange : effect b.path with
        | none => rfl
        | some change =>
            cases change with
            | expanded => simp
            | renamed name =>
                -- Such an identifier is met, and would be a fixed binding.
                exfalso
                obtain ⟨m, hmet⟩ := mem_positions_iff.mp (hdone _ hmem)
                obtain rfl := eq_of_met? hmet hbholds
                obtain ⟨hnamed, hnotfixed⟩ := heffect _ _ _ hmet hsite hchange
                obtain ⟨old, hname⟩ := Option.isSome_iff_exists.mp hnamed
                have hfixed := isFixedBinding_of_visible hk ht hq hb hmet hkind hname hsite
                rw [hnotfixed] at hfixed
                cases hfixed
      · rfl

/-- A node of a tree with an empty slot has the text that the node of the full tree has. -/
theorem sameText_of_detach {n m rest : Node} {q r : Path} (hne : q ≠ [])
    (hdetach : n.detach q = some (m, rest)) {x : Node} (hx : rest.at? r = some x) :
    ∃ y, n.at? r = some y ∧ y.SameText x := by
  have hpair := Node.resembles_detach hne hdetach r
  rw [hx] at hpair
  generalize n.at? r = y at hpair ⊢
  cases hpair with
  | present _ h => exact ⟨_, rfl, h⟩

/-- What the search finds at a binding: the name that its declaration was given, if it was given one by
then. -/
def outcome : Option String → Scope.Resolution
  | some name => .binding name
  | none => .shadowed

/-- The name of a visible binding of the original tree, given that it stands at a site. -/
theorem name?_of_site (hk : k.sites = sites t) {b : Occurrence} (hb : t.Holds b) {site : Site}
    (hsite : k.site? b.path = some site) :
    b.node.kind = .identifier ∧ b.node.name? = some site.candidate.name := by
  obtain ⟨n, hmet, hkind, hname⟩ := Knowledge.node_of_site? hk hsite
  obtain rfl := eq_of_met? hmet hb
  exact ⟨hkind, hname⟩

/-- What the search sees at one binding of the half-renamed tree. -/
theorem matching?_of_similar (hk : k.sites = sites t) (ht : t.Regular)
    {effect : Path → Option Change} (heffect : Keeps t k effect) {done : List Path}
    (hdone : ∀ r ∈ done, r ∈ t.positions)
    (h : Tracks t (k.changes effect done) (k.former done) p) {q : Path} {n m rest : Node}
    (hq : t.met? q = some n) (hne : q ≠ []) (hdetach : p.tree.detach q = some (m, rest))
    {b b' : Occurrence} (hb : b ∈ Scope.visible (t.ancestors q))
    (hb' : b' ∈ Scope.visible (rest.ancestors q)) (hsimilar : b.Similar (some q) b')
    (name : String) :
    Scope.matching? p.marks name b'
      = if b.node.isIdentifierNamed name then some (outcome (k.given? done b.path)) else none := by
  have hholds := Scope.holds_of_mem_visible hb
  have hkind' : b'.node.kind = b.node.kind := hsimilar.alike.kind
  -- Emptying a slot changes no name, so that the tree before it tells what name the binding has now.
  have hname' : b'.node.name? = (revise b.node (k.changes effect done b.path)).name? := by
    obtain ⟨y, hy, hsame⟩ := sameText_of_detach hne hdetach (Scope.holds_of_mem_visible hb')
    rw [hsimilar.path] at hy
    obtain ⟨y', hy', hout⟩ := h.at? hholds
    rw [hy] at hy'
    cases hy'
    rw [← name?_revise_outline, ← hout, name?_outline]
    exact hsame.text "name"
  unfold Scope.matching?
  rw [hsimilar.path, h.marks]
  cases hsite : k.site? b.path with
  | none =>
      have hgiven : k.given? done b.path = none := by simp [Knowledge.given?, hsite]
      rw [Knowledge.former_of_no_site hsite, hgiven]
      have hsame : b'.node.isIdentifierNamed name = b.node.isIdentifierNamed name := by
        unfold Node.isIdentifierNamed
        rw [hkind']
        by_cases hkind : b.node.kind = .identifier
        · rw [hname', changes_of_visible hk ht heffect hdone hq hb hkind, hgiven, Option.none_or]
        · rw [beq_false_of_ne hkind, Bool.false_and, Bool.false_and]
      rw [hsame]
      rfl
  | some site =>
      -- A mark holds the name in the original tree, and where there is none that name is still there.
      obtain ⟨hkind, hname⟩ := name?_of_site hk hholds hsite
      rw [changes_of_visible hk ht heffect hdone hq hb hkind, hname] at hname'
      rw [Knowledge.former_of_site hsite]
      unfold Node.isIdentifierNamed
      rw [hkind', hkind, hname', hname]
      cases k.given? done b.path with
      | none => simp [outcome]
      | some generated => simp [outcome]

/-- **The half-renamed tree resolves like the original one.** -/
theorem resolve_eq_lookup (hk : k.sites = sites t) (ht : t.Regular)
    {effect : Path → Option Change} (heffect : Keeps t k effect) {done : List Path}
    (hdone : ∀ r ∈ done, r ∈ t.positions)
    (h : Tracks t (k.changes effect done) (k.former done) p) {q : Path} {n m rest : Node}
    {name : String} (hq : t.met? q = some n) (hsite : k.site? q = none)
    (hrenamable : Scope.isRenamable n.kind name (t.ancestors q) = true)
    (hout : ∀ b, Scope.find? (t.ancestors q) name = some b → q <+: b.path → b.path = q)
    (hdetach : p.tree.detach q = some (m, rest)) :
    Scope.resolve (rest.ancestors q) name p.marks
      = ((Scope.find? (t.ancestors q) name).map fun b => outcome (k.given? done b.path)).getD
          .unresolved := by
  have hne : q ≠ [] := by
    rintro rfl
    cases hrenamable
  have hsimilar := similar_ancestors_of_gap (h.resembles_detach hne hdetach) (at?_of_met? hq)
    fun r hr => (Option.some.inj hr).symm
  rw [Scope.resolve_eq, Scope.find?, ← findSome?_ite]
  congr 1
  refine (thinned_visible hsimilar).findSome?_eq (fun b hb b' hb' hbb' => ?_) fun b hfirst hconc => ?_
  · exact matching?_of_similar hk ht heffect hdone h hq hne hdetach hb hb' hbb' name
  · -- What lies in the slot is the identifier itself, which is no declaration.
    have hfind : Scope.find? (t.ancestors q) name = some b := by
      rw [Scope.find?, ← hfirst]
      congr 1
      funext c
      cases c.node.isIdentifierNamed name <;> rfl
    obtain ⟨r, hr, hpre⟩ := hconc
    cases hr
    have hpath := hout b hfind hpre
    obtain ⟨hb, hkind, hbname⟩ := Scope.mem_of_find? hfind
    have hmet : t.met? b.path = some b.node := by
      have hholds : t.at? q = some b.node := hpath ▸ Scope.holds_of_mem_visible hb
      rw [hpath, hq, eq_of_met? hq hholds]
    have hfixed := isFixedBinding_of_visible hk ht hq hb hmet hkind hbname (hpath ▸ hsite)
    rw [hpath] at hfixed
    rw [Scope.isRenamable_of_isFixedBinding hfixed] at hrenamable
    cases hrenamable

/-! ## The effects of visits -/

section Effects

variable {resolver : Scope.Resolver} {q : Path} {n : Node}

theorem not_mem_metBefore (t : Node) (q : Path) : q ∉ metBefore t q := by
  intro h
  simpa using List.mem_takeWhile_imp h

theorem mem_positions_of_mem_metBefore {r : Path} (h : r ∈ metBefore t q) : r ∈ t.positions :=
  (List.takeWhile_sublist _).subset h

/-- An identifier that is no site is as it was when it is visited. -/
theorem at?_before (resolver : Scope.Resolver) (hk : k.sites = sites t) (hq : t.met? q = some n)
    (hsite : k.site? q = none) :
    k.changes (k.effect resolver t) (metBefore t q) q = none ∧
      ∃ m, (k.before resolver t q).tree.at? q = some m ∧ m.outline = n.outline := by
  have hnone : k.changes (k.effect resolver t) (metBefore t q) q = none := by
    simp [Knowledge.changes, hsite, not_mem_metBefore]
  exact ⟨hnone, (tracks_before hk resolver q).at?_unchanged (at?_of_met? hq) hnone⟩

theorem isNamed_of_effect (hk : k.sites = sites t) (hq : t.met? q = some n)
    (hsite : k.site? q = none) {name : String} (h : k.effect resolver t q = some (.renamed name)) :
    isNamed n = true ∧ n.name?.isSome = true := by
  obtain ⟨_, m, hm, hout⟩ := at?_before resolver hk hq hsite
  have hkind : m.kind = n.kind := by rw [← kind_outline, hout, kind_outline]
  unfold Knowledge.effect Progress.effect? at h
  rw [hm, Option.bind_some] at h
  split at h
  · split at h <;> cases h
  · split at h
    · rename_i hnamed
      obtain ⟨name', htarget, _⟩ := Option.map_eq_some_iff.mp h
      obtain ⟨old, hold⟩ := Progress.exists_name_of_target? htarget
      refine ⟨?_, ?_⟩
      · unfold isNamed at hnamed ⊢
        rwa [hkind] at hnamed
      · rw [← name?_outline, ← hout, name?_outline]
        exact Option.isSome_of_eq_some hold
    · cases h

theorem effect_of_isNamed (hk : k.sites = sites t) (resolver : Scope.Resolver)
    (hq : t.met? q = some n) (hsite : k.site? q = none) (hn : isNamed n = true) {name : String}
    (hname : n.name? = some name) :
    ∃ m rest, (k.before resolver t q).tree.detach q = some (m, rest) ∧
      k.effect resolver t q
        = (if k.isAssigned name && Scope.isRenamable n.kind name (t.ancestors q) then
            (resolver (rest.ancestors q) name (k.before resolver t q).marks).name?
          else none).map .renamed := by
  obtain ⟨hnone, m, hm, hout⟩ := at?_before resolver hk hq hsite
  have hkind : m.kind = n.kind := by rw [← kind_outline, hout, kind_outline]
  obtain ⟨rest, hrest, htarget⟩ := target?_eq (k := k) (tracks_before hk resolver q) resolver
    (at?_of_met? hq) hname hnone hm
  refine ⟨m, rest, hrest, ?_⟩
  have hmnamed : isNamed m = true := by
    unfold isNamed at hn ⊢
    rwa [hkind]
  have hmkind : m.kind ≠ .property := by
    intro hproperty
    simp [isNamed, hproperty] at hmnamed
  unfold Knowledge.effect Progress.effect?
  rw [hm, Option.bind_some, if_neg hmkind, if_pos hmnamed, htarget]

theorem keeps_effect (hk : k.sites = sites t) (resolver : Scope.Resolver) :
    Keeps t k (k.effect resolver t) := by
  intro q n name hq hsite heffect
  obtain ⟨hn, hnamed⟩ := isNamed_of_effect hk hq hsite heffect
  obtain ⟨old, hold⟩ := Option.isSome_iff_exists.mp hnamed
  refine ⟨hnamed, ?_⟩
  obtain ⟨m, rest, _, heq⟩ := effect_of_isNamed hk resolver hq hsite hn hold
  by_contra hfixed
  rw [Scope.isRenamable_of_isFixedBinding (by simpa using hfixed), Bool.and_false,
    if_neg Bool.false_ne_true] at heq
  rw [heq] at heffect
  cases heffect

/-- A name that was given belongs to an assigned candidate. -/
theorem isAssigned_of_given? (hk : k.sites = sites t) {b : Occurrence} (hb : t.Holds b)
    {done : List Path} {name generated : String} (hname : b.node.name? = some name)
    (h : k.given? done b.path = some generated) : k.isAssigned name = true := by
  obtain ⟨site, hsite, hgiven⟩ := Option.bind_eq_some_iff.mp h
  have hcandidate := (name?_of_site hk hb hsite).2
  rw [hname] at hcandidate
  split at hgiven
  · have hmem := exists_of_generated? hgiven
    refine List.any_eq_true.mpr ⟨_, hmem, ?_⟩
    simpa using (Option.some.inj hcandidate).symm
  · cases hgiven

/-- **A reference takes the name that was given to what it refers to**, as far as that was renamed when the
reference was visited. -/
theorem effect_eq (hk : k.sites = sites t) (ht : t.Regular) (hq : t.met? q = some n)
    (hsite : k.site? q = none) (hn : isNamed n = true) {name : String} (hname : n.name? = some name)
    (hout : Scope.LooksOut t q) :
    k.effect Scope.resolve t q
      = (if Scope.isRenamable n.kind name (t.ancestors q) then
          (Scope.find? (t.ancestors q) name).bind fun b => k.given? (metBefore t q) b.path
        else none).map .renamed := by
  obtain ⟨m, rest, hdetach, heq⟩ := effect_of_isNamed hk Scope.resolve hq hsite hn hname
  rw [heq]
  congr 1
  cases hrenamable : Scope.isRenamable n.kind name (t.ancestors q) with
  | false => simp
  | true =>
      have hout : ∀ b, Scope.find? (t.ancestors q) name = some b → q <+: b.path → b.path = q :=
        fun b hfind => hout b.path (Scope.lookup?_of_find? (at?_of_met? hq) hname hfind)
      rw [resolve_eq_lookup hk ht (keeps_effect hk Scope.resolve)
        (fun r => mem_positions_of_mem_metBefore) (tracks_before hk Scope.resolve q) hq hsite
        hrenamable hout hdetach, Bool.and_true, if_pos rfl]
      cases hfind : Scope.find? (t.ancestors q) name with
      | none => simp [Scope.Resolution.name?]
      | some b =>
          obtain ⟨hvisible, _, hbname⟩ := Scope.mem_of_find? hfind
          have hb := Scope.holds_of_mem_visible hvisible
          simp only [Option.map_some, Option.getD_some, Option.bind_some]
          cases hgiven : k.given? (metBefore t q) b.path with
          | none => simp [outcome, Scope.Resolution.name?]
          | some generated =>
              -- The name is assigned somewhere, so that the search is not skipped.
              rw [isAssigned_of_given? hk hb hbname hgiven, if_pos rfl]
              rfl

end Effects

end Mangle

end Minifier
