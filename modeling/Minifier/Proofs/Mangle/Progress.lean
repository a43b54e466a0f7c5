import Mathlib.Data.List.TakeWhile
import Mathlib.Logic.Function.Basic
import Minifier.Proofs.Mangle.Sites
import Minifier.Proofs.Scope.Likeness
import Minifier.Proofs.Tree.Outline

/-!
# What a mangling run changes

At every moment of a run the tree is the original one with a *change* at some positions: a new name, or a
shorthand property written out. `Tracks` says so, with the marks that go with the changes.

* One step of either pass changes one position (`Tracks.declare`, `Tracks.visit`).
* So the changes after the first pass, and before and after each position of the second, are known:
  those of the declarations renamed so far, and at the positions visited what the visit did
  (`Knowledge.changes`, `tracks_before`, `tracks_referAll`).

This holds for every tree, every assignment of names and every way to resolve them.
-/

namespace Minifier.Mangle

open Node

/-! ## Changes -/

/-- A change to one node. -/
inductive Change where
  /-- an identifier took another name -/
  | renamed (name : String)
  /-- a shorthand property was written out -/
  | expanded
deriving DecidableEq, Repr

/-- A node with a change made to it, if there is one. -/
def revise (n : Node) : Option Change → Node
  | none => n
  | some (.renamed name) => n.setName name
  | some .expanded => n.setValue "shorthand" (.bool false)

@[simp] theorem kind_revise (n : Node) (change : Option Change) :
    (revise n change).kind = n.kind := by
  rcases change with _ | _ | _ <;> rfl

@[simp] theorem name?_revise_renamed (n : Node) (name : String) :
    (revise n (some (.renamed name))).name? = some name := name?_setName n name

@[simp] theorem name?_revise_none (n : Node) : (revise n none).name? = n.name? := rfl

@[simp] theorem name?_revise_expanded (n : Node) : (revise n (some .expanded)).name? = n.name? :=
  text?_congr (get?_set_of_ne (by decide))

theorem name?_revise_outline (n : Node) (change : Option Change) :
    (revise n.outline change).name? = (revise n change).name? := by
  rcases change with _ | name | _ <;> simp

/-- No change touches what scopes depend on. -/
theorem alike_revise (n : Node) (change : Option Change) : n.Alike (revise n change) := by
  rcases change with _ | name | _
  · exact (SameText.refl n).alike
  · exact ⟨rfl, text?_congr (get?_set_of_ne (by decide)), flag_congr (get?_set_of_ne (by decide))⟩
  · exact ⟨rfl, text?_congr (get?_set_of_ne (by decide)), flag_congr (get?_set_of_ne (by decide))⟩

/-- The tree is the original one with the changes made to it, and the marks are the former names. -/
structure Tracks (t : Node) (changes : Path → Option Change) (former : Path → Option String)
    (p : Progress) : Prop where
  tree : ∀ q, p.tree.sketch q = (t.sketch q).map (revise · (changes q))
  marks : ∀ q, Entries.get? p.marks q = former q

variable {t : Node} {p : Progress}

namespace Tracks

variable {changes : Path → Option Change} {former : Path → Option String}

theorem at? (h : Tracks t changes former p) {q : Path} {n : Node} (hq : t.at? q = some n) :
    ∃ m, p.tree.at? q = some m ∧ m.outline = revise n.outline (changes q) := by
  refine at?_of_sketch ?_
  rw [h.tree, sketch, hq]
  rfl

theorem at?_unchanged (h : Tracks t changes former p) {q : Path} {n : Node} (hq : t.at? q = some n)
    (hnone : changes q = none) : ∃ m, p.tree.at? q = some m ∧ m.outline = n.outline := by
  obtain ⟨m, hm, hout⟩ := h.at? hq
  rw [hnone] at hout
  exact ⟨m, hm, hout⟩

theorem resembles (h : Tracks t changes former p) : t.Resembles Alike none p.tree := by
  intro q
  have hq := h.tree q
  unfold sketch at hq
  cases hn : t.at? q with
  | none =>
      rw [hn] at hq
      rw [Option.map_eq_none_iff.mp hq]
      exact .absent
  | some n =>
      obtain ⟨m, hm, hout⟩ := h.at? hn
      rw [hm]
      refine .present (not_concealed_none q) ?_
      have halike := alike_revise n.outline (changes q)
      rw [← hout] at halike
      exact ⟨halike.kind, by simpa using halike.declared, by simpa using halike.computed⟩

/-- Changing a node that is not changed yet. -/
theorem modify (h : Tracks t changes former p) {q : Path} {n : Node} (hq : t.at? q = some n)
    (hnone : changes q = none) {f : Node → Node} {change : Change}
    (hstep : ∀ m step, m.outline = n.outline → (f m).step? step = m.step? step)
    (hout : ∀ m, (f m).outline = revise m.outline (some change)) (r : Path) :
    (p.tree.modifyAt f q).sketch r
      = (t.sketch r).map (revise · (Function.update changes q (some change) r)) := by
  obtain ⟨m, hm, hsame⟩ := h.at?_unchanged hq hnone
  rw [sketch_modifyAt hm (fun step => hstep m step hsame)]
  by_cases hr : r = q
  · subst hr
    rw [if_pos rfl, Function.update_self, hout, hsame, sketch, hq]
    rfl
  · rw [if_neg hr, Function.update_of_ne hr, h.tree]

/-- Giving an identifier another name. -/
theorem rename (h : Tracks t changes former p) {q : Path} {n : Node} {old : String}
    (hq : t.at? q = some n) (hname : n.name? = some old) (hnone : changes q = none) (name : String)
    (r : Path) :
    (p.tree.modifyAt (·.setName name) q).sketch r
      = (t.sketch r).map (revise · (Function.update changes q (some (.renamed name)) r)) := by
  refine h.modify hq hnone (fun m step hsame => ?_) (fun m => outline_setName m name) r
  have hm : m.name? = some old := by rw [← name?_outline, hsame, name?_outline, hname]
  exact step?_setName hm name step

/-- Writing a shorthand property out. -/
theorem expand (h : Tracks t changes former p) {q : Path} {n : Node} (hq : t.at? q = some n)
    (hflag : n.flag "shorthand" = true) (hnone : changes q = none) (r : Path) :
    (p.tree.modifyAt (·.setValue "shorthand" (.bool false)) q).sketch r
      = (t.sketch r).map (revise · (Function.update changes q (some .expanded) r)) := by
  refine h.modify hq hnone (fun m step hsame => ?_) (fun m => outline_setValue m _ _) r
  have hm : m.flag "shorthand" = true := by rw [← flag_outline, hsame, flag_outline, hflag]
  exact step?_setFlag hm _ step

/-- **One declaration.** -/
theorem declare (h : Tracks t changes former p) (k : Knowledge) {site : Site} {n : Node}
    (hq : t.at? site.path = some n) (hname : n.name? = some site.candidate.name)
    (hnone : changes site.path = none) (hformer : former site.path = none) :
    Tracks t
      (Function.update changes site.path ((generated? k.assignments site.candidate).map .renamed))
      (Function.update former site.path
        ((generated? k.assignments site.candidate).map fun _ => site.candidate.name))
      (p.declare k site) := by
  unfold Progress.declare
  cases hgenerated : generated? k.assignments site.candidate with
  | none =>
      simp only [Option.map_none]
      rw [Function.update_eq_self_iff.mpr hnone.symm, Function.update_eq_self_iff.mpr hformer.symm]
      exact h
  | some name =>
      refine ⟨h.rename hq hname hnone name, fun r => ?_⟩
      by_cases hr : r = site.path
      · subst hr
        rw [Entries.get?_set_self, Function.update_self]
        rfl
      · rw [Entries.get?_set_of_ne hr, Function.update_of_ne hr, h.marks]

end Tracks

namespace Knowledge

/-! ## The changes made up to a position -/

/-- The new name of the declaration at a position, when the first pass is over and the second has visited
some positions. Whole parameters are renamed by the second. -/
def given? (k : Knowledge) (done : List Path) (q : Path) : Option String :=
  (k.site? q).bind fun site =>
    if !site.direct || q ∈ done then generated? k.assignments site.candidate else none

/-- The changes by then: the declarations that were renamed, and elsewhere the effects of the visits. -/
def changes (k : Knowledge) (effect : Path → Option Change) (done : List Path) (q : Path) :
    Option Change :=
  if (k.site? q).isSome then (k.given? done q).map .renamed else if q ∈ done then effect q else none

/-- The former names of the declarations that are renamed by then. -/
def former (k : Knowledge) (done : List Path) (q : Path) : Option String :=
  (k.site? q).bind fun site => (k.given? done q).map fun _ => site.candidate.name

variable {k : Knowledge} {effect : Path → Option Change} {done : List Path} {q : Path}

/-- A visit makes a difference at its own position only. -/
theorem changes_concat :
    k.changes effect (done ++ [q])
      = Function.update (k.changes effect done) q (k.changes effect (done ++ [q]) q) := by
  funext r
  by_cases hr : r = q
  · rw [hr, Function.update_self]
  · rw [Function.update_of_ne hr]
    simp [changes, given?, hr]

theorem former_concat :
    k.former (done ++ [q])
      = Function.update (k.former done) q (k.former (done ++ [q]) q) := by
  funext r
  by_cases hr : r = q
  · rw [hr, Function.update_self]
  · rw [Function.update_of_ne hr]
    simp [former, given?, hr]

theorem given?_of_site {site : Site} (h : k.site? q = some site) (hrenamed : !site.direct || q ∈ done) :
    k.given? done q = generated? k.assignments site.candidate := by
  simp only [given?, h, Option.bind_some]
  rw [if_pos hrenamed]

theorem changes_of_site {site : Site} (h : k.site? q = some site) :
    k.changes effect done q = (k.given? done q).map .renamed := by
  simp [changes, h]

theorem former_of_site {site : Site} (h : k.site? q = some site) :
    k.former done q = (k.given? done q).map fun _ => site.candidate.name := by
  simp [former, h]

theorem changes_of_no_site (h : k.site? q = none) (hdone : q ∈ done) :
    k.changes effect done q = effect q := by
  simp [changes, h, hdone]

theorem former_of_no_site (h : k.site? q = none) : k.former done q = none := by
  simp [former, h]

end Knowledge

/-! ## The first pass -/

/-- A site at the end of a list is found at its own position and nowhere else. -/
theorem find?_concat {α : Type} (f : Site → Option α) {l : List Site} {site : Site}
    (h : l.find? (·.path == site.path) = none) :
    (fun q => ((l ++ [site]).find? (·.path == q)).bind f)
      = Function.update (fun q => (l.find? (·.path == q)).bind f) site.path (f site) := by
  funext q
  rw [List.find?_append]
  by_cases hq : q = site.path
  · subst hq
    rw [Function.update_self, h]
    simp
  · rw [Function.update_of_ne hq]
    simp [Ne.symm hq]

/-- The declarations of a list of sites. -/
theorem tracks_declare (k : Knowledge) {l : List Site} (hl : (l.map (·.path)).Nodup)
    (hsites : ∀ site ∈ l, site ∈ sites t) :
    Tracks t
      (fun q => (l.find? (·.path == q)).bind fun site =>
        (generated? k.assignments site.candidate).map .renamed)
      (fun q => (l.find? (·.path == q)).bind fun site =>
        (generated? k.assignments site.candidate).map fun _ => site.candidate.name)
      (l.foldl (·.declare k ·) { tree := t }) := by
  induction l using List.reverseRecOn with
  | nil =>
      refine ⟨fun q => ?_, fun q => rfl⟩
      show t.sketch q = (t.sketch q).map id
      rw [Option.map_id, id]
  | append_singleton l site ih =>
      rw [List.map_append, List.nodup_append] at hl
      obtain ⟨hl, _, hdisjoint⟩ := hl
      have hbefore : l.find? (·.path == site.path) = none := by
        rw [List.find?_eq_none]
        intro other hother heq
        have hpath : other.path = site.path := by simpa using heq
        exact hdisjoint _ (List.mem_map_of_mem hother) _ (List.mem_map_of_mem (by simp)) hpath
      obtain ⟨n, hmet, hsite⟩ := mem_sites_iff.mp (hsites site (by simp))
      have hname := (site?_eq_some_iff.mp hsite).2.1
      have htracks := ih hl fun s hs => hsites s (by simp [hs])
      rw [find?_concat _ hbefore, find?_concat _ hbefore, List.foldl_append]
      exact htracks.declare k (at?_of_met? hmet) hname (by simp [hbefore]) (by simp [hbefore])

/-- **After the first pass.** -/
theorem tracks_declareAll {k : Knowledge} (hk : k.sites = sites t) (effect : Path → Option Change) :
    Tracks t (k.changes effect []) (k.former []) (declareAll k t) := by
  have hnodup : ((k.sites.filter (!·.direct)).map (·.path)).Nodup := by
    rw [hk]
    exact (nodup_sites t).sublist (List.filter_sublist.map _)
  -- Whole parameters are left to the second pass.
  have hfind (q : Path) : (k.sites.filter (!·.direct)).find? (·.path == q)
      = (k.site? q).bind fun site => if !site.direct then some site else none := by
    ext site
    rw [find?_path_eq_some_iff hnodup, Option.bind_eq_some_iff, List.mem_filter]
    constructor
    · rintro ⟨⟨hmem, hdirect⟩, hpath⟩
      exact ⟨site, (Knowledge.site?_eq_some_iff hk).mpr ⟨hk ▸ hmem, hpath⟩, if_pos hdirect⟩
    · rintro ⟨other, hother, heq⟩
      split at heq
      · rename_i hdirect
        cases heq
        obtain ⟨hmem, hpath⟩ := (Knowledge.site?_eq_some_iff hk).mp hother
        exact ⟨⟨hk ▸ hmem, hdirect⟩, hpath⟩
      · cases heq
  have htracks := tracks_declare k hnodup fun site hsite =>
    hk ▸ (List.mem_filter.mp hsite).1
  unfold declareAll
  convert htracks using 1
  · funext q
    rw [hfind]
    unfold Knowledge.changes Knowledge.given?
    cases k.site? q with
    | none => simp
    | some site => cases hdirect : site.direct <;> simp [hdirect]
  · funext q
    rw [hfind]
    unfold Knowledge.former Knowledge.given?
    cases k.site? q with
    | none => simp
    | some site => cases hdirect : site.direct <;> simp [hdirect]

/-! ## The second pass -/

namespace Progress

/-- The shorthand property would be written out now. -/
def expands (p : Progress) (k : Knowledge) (property : Occurrence) : Bool :=
  property.node.flag "shorthand" &&
    (shorthandBinding? property).any fun binding =>
      (Entries.get? p.marks binding.path).isSome || (k.site? binding.path).isSome
        || binding.node.name?.any k.isAssigned

theorem expand_eq (p : Progress) (k : Knowledge) (property : Occurrence) :
    p.expand k property =
      if p.expands k property then
        { p with tree := p.tree.modifyAt (·.setValue "shorthand" (.bool false)) property.path }
      else p := by
  unfold expand expands
  cases property.node.flag "shorthand" with
  | false => rfl
  | true =>
      cases shorthandBinding? property with
      | none => rfl
      | some binding => simp only [if_true, Option.any_some, Bool.true_and]

/-- What a visit would change now at a position that is no site. -/
def effect? (p : Progress) (k : Knowledge) (resolver : Scope.Resolver) (path : Path) :
    Option Change :=
  (p.tree.at? path).bind fun node =>
    if node.kind = .property then if p.expands k ⟨path, node⟩ then some .expanded else none
    else if isNamed node then (p.target? k resolver ⟨path, node⟩).map .renamed
    else none

theorem exists_name_of_target? {k : Knowledge} {resolver : Scope.Resolver} {o : Occurrence}
    {name : String} (h : p.target? k resolver o = some name) : ∃ old, o.node.name? = some old := by
  obtain ⟨old, hold, _⟩ := Option.bind_eq_some_iff.mp h
  exact ⟨old, hold⟩

end Progress

/-- **One visit where no declaration stands.** -/
theorem Tracks.effect {changes : Path → Option Change} {former : Path → Option String}
    (h : Tracks t changes former p) {k : Knowledge} {resolver : Scope.Resolver} {q : Path} {n : Node}
    (hq : t.at? q = some n) (hsite : k.site? q = none) (hnone : changes q = none)
    (hformer : former q = none) :
    Tracks t (Function.update changes q (p.effect? k resolver q)) former (p.visit k resolver q) := by
  obtain ⟨m, hm, hout⟩ := h.at?_unchanged hq hnone
  have hunchanged : Function.update changes q none = changes :=
    Function.update_eq_self_iff.mpr hnone.symm
  unfold Progress.visit Progress.effect?
  simp only [hm, Option.bind_some]
  split
  · -- A property: its own flag changes, if it is written out.
    rw [Progress.expand_eq]
    split
    · rename_i hexpands
      have hflag : m.flag "shorthand" = true := (Bool.and_eq_true _ _ ▸ hexpands).1
      have hflag' : n.flag "shorthand" = true := by rw [← flag_outline, ← hout, flag_outline, hflag]
      exact ⟨h.expand hq hflag' hnone, h.marks⟩
    · rw [hunchanged]
      exact h
  · split
    · -- An identifier, with no mark and no site here: it takes the name that is found for it, if one is.
      unfold Progress.rename
      simp only [hsite, h.marks, hformer, Option.isSome_none, Bool.false_eq_true, if_false]
      cases htarget : p.target? k resolver ⟨q, m⟩ with
      | none =>
          simp only [Option.map_none, hunchanged]
          exact h
      | some name =>
          obtain ⟨old, hold⟩ := Progress.exists_name_of_target? htarget
          have hname : n.name? = some old := by rw [← name?_outline, ← hout, name?_outline, hold]
          exact ⟨h.rename hq hname hnone name, h.marks⟩
    · rw [hunchanged]
      exact h

variable {k : Knowledge}

/-- **One visit.** -/
theorem Tracks.visit {resolver : Scope.Resolver} {effect : Path → Option Change}
    (hk : k.sites = sites t) {done : List Path}
    (h : Tracks t (k.changes effect done) (k.former done) p) {q : Path} {n : Node}
    (hq : t.met? q = some n) (hnew : q ∉ done)
    (heffect : k.site? q = none → effect q = p.effect? k resolver q) :
    Tracks t (k.changes effect (done ++ [q])) (k.former (done ++ [q])) (p.visit k resolver q) := by
  have hmem : q ∈ done ++ [q] := by simp
  rw [Knowledge.changes_concat, Knowledge.former_concat]
  cases hsite : k.site? q with
  | none =>
      have hnone : k.changes effect done q = none := by simp [Knowledge.changes, hsite, hnew]
      have hformer : k.former done q = none := Knowledge.former_of_no_site hsite
      have hsame : Function.update (k.former done) q none = k.former done :=
        Function.update_eq_self_iff.mpr hformer.symm
      rw [Knowledge.changes_of_no_site hsite hmem, Knowledge.former_of_no_site hsite, hsame,
        heffect hsite]
      exact h.effect (at?_of_met? hq) hsite hnone hformer
  | some site =>
      obtain ⟨n', hmet, hkind, hname⟩ := Knowledge.node_of_site? hk hsite
      have hpath := ((Knowledge.site?_eq_some_iff hk).mp hsite).2
      obtain ⟨m, hm, hout⟩ := h.at? (at?_of_met? hmet)
      have hmkind : m.kind = .identifier := by rw [← kind_outline, hout, kind_revise, ← hkind]; rfl
      have hvisit : p.visit k resolver q = if site.direct then p.declare k site else p := by
        unfold Progress.visit
        simp only [hm, hmkind, reduceCtorEq, if_false, isNamed, BEq.rfl, Bool.true_or, if_true]
        unfold Progress.rename
        simp only [hsite]
      have hgiven : k.given? (done ++ [q]) q = generated? k.assignments site.candidate :=
        Knowledge.given?_of_site hsite (by simp)
      rw [hvisit, Knowledge.changes_of_site hsite, Knowledge.former_of_site hsite, hgiven]
      cases hdirect : site.direct with
      | true =>
          -- A whole parameter, whose turn is now.
          have hnotyet : k.given? done q = none := by simp [Knowledge.given?, hsite, hnew, hdirect]
          have hnone : k.changes effect done q = none := by
            rw [Knowledge.changes_of_site hsite, hnotyet]
            rfl
          have hformer : k.former done q = none := by
            rw [Knowledge.former_of_site hsite, hnotyet]
            rfl
          rw [if_pos rfl]
          rw [← hpath] at hmet hnone hformer ⊢
          exact h.declare k (at?_of_met? hmet) hname hnone hformer
      | false =>
          -- The first pass has been here.
          have halready : k.given? done q = generated? k.assignments site.candidate :=
            Knowledge.given?_of_site hsite (by simp [hdirect])
          rw [if_neg Bool.false_ne_true, ← halready, ← Knowledge.changes_of_site hsite,
            ← Knowledge.former_of_site hsite, Function.update_eq_self, Function.update_eq_self]
          exact h

/-! ## Whole runs -/

/-- The positions that a traversal meets before another one. -/
def metBefore (t : Node) (q : Path) : List Path := t.positions.takeWhile (· ≠ q)

namespace Knowledge

/-- The run up to a position. -/
def before (k : Knowledge) (resolver : Scope.Resolver) (t : Node) (q : Path) : Progress :=
  (metBefore t q).foldl (Progress.visit k resolver) (declareAll k t)

/-- What the visit of a position changes, if that is no site. -/
def effect (k : Knowledge) (resolver : Scope.Resolver) (t : Node) (q : Path) : Option Change :=
  (k.before resolver t q).effect? k resolver q

end Knowledge

theorem metBefore_eq {done rest : List Path} {q : Path} (h : t.positions = done ++ q :: rest) :
    metBefore t q = done := by
  have hnodup := t.nodup_positions
  rw [h, List.nodup_append] at hnodup
  unfold metBefore
  rw [h, List.takeWhile_append_of_pos fun r hr => ?_, List.takeWhile_cons_of_neg (by simp),
    List.append_nil]
  simpa using hnodup.2.2 r hr q List.mem_cons_self

/-- **A run, position by position.** -/
theorem tracks_run (hk : k.sites = sites t) (resolver : Scope.Resolver) {done rest : List Path}
    (h : t.positions = done ++ rest) :
    Tracks t (k.changes (k.effect resolver t) done) (k.former done)
      (done.foldl (Progress.visit k resolver) (declareAll k t)) := by
  -- By induction on what was met last: the tree before it is the one that the effect was computed in.
  induction done using List.reverseRecOn generalizing rest with
  | nil => exact tracks_declareAll hk _
  | append_singleton done q ih =>
      rw [List.append_assoc] at h
      have hbefore := metBefore_eq h
      have hnew : q ∉ done := by
        intro hmem
        rw [← hbefore] at hmem
        simpa using List.mem_takeWhile_imp hmem
      obtain ⟨n, hn⟩ : ∃ n, t.met? q = some n := mem_positions_iff.mp (by rw [h]; simp)
      rw [List.foldl_append]
      refine (ih h).visit hk hn hnew fun _ => ?_
      unfold Knowledge.effect Knowledge.before
      rw [hbefore]

/-- **Before a position is visited.** -/
theorem tracks_before (hk : k.sites = sites t) (resolver : Scope.Resolver) (q : Path) :
    Tracks t (k.changes (k.effect resolver t) (metBefore t q)) (k.former (metBefore t q))
      (k.before resolver t q) :=
  tracks_run hk resolver (List.takeWhile_append_dropWhile ..).symm

theorem Thinned.map_path {l l' : List Occurrence} (h : Thinned none l l') :
    l'.map (·.path) = l.map (·.path) := by
  induction h with
  | nil => rfl
  | keep h _ ih => rw [List.map_cons, List.map_cons, h.path, ih]
  | drop h _ _ => exact absurd h (not_concealed_none _)

theorem Tracks.positions_eq {changes : Path → Option Change} {former : Path → Option String}
    (h : Tracks t changes former p) : p.tree.positions = t.positions :=
  Thinned.map_path (thinned_below (similar_of_resembles h.resembles rfl rfl))

/-- **After the run.** -/
theorem tracks_referAll (hk : k.sites = sites t) (resolver : Scope.Resolver) :
    Tracks t (k.changes (k.effect resolver t) t.positions) (k.former t.positions)
      (referAll k resolver (declareAll k t)) := by
  unfold referAll
  rw [show (declareAll k t).tree.occurrences.map (·.path) = t.positions from
    (tracks_declareAll hk (k.effect resolver t)).positions_eq]
  exact tracks_run hk resolver (List.append_nil _).symm

end Minifier.Mangle
