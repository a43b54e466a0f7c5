import Minifier.Proofs.Edit.Fold
import Minifier.Proofs.Mangle.Frame
import Minifier.Proofs.Mangle.Progress

/-!
# Mangling as editing

Each pass of a mangling run can be carried out by a visitor that edits the tree while it walks over it.
A walk takes every node out of the tree and puts it back, and it may stop on the way. These do not: they
come to their ends with what the passes make of the tree (`mangleByWalks_eq`).
-/

namespace Minifier.Mangle

open Node

/-! ## The visitors -/

/-- What the visitors keep: the old names of renamed declarations, and how many references were
renamed. -/
abbrev Books := Scope.Marks × Nat

/-- A visitor that changes the node it is at, and its books. -/
def editor (edit : Cursor Empty → Books → Node × Books) : Visitor Books Empty where
  enter := fun (c, books) => .ok () ({ c with node := (edit c books).1 }, (edit c books).2)
  leave := nofun

namespace Knowledge

/-- Rename the declaration that the cursor is at. -/
def declareHere (k : Knowledge) (site : Site) (c : Cursor Empty) (books : Books) : Node × Books :=
  match generated? k.assignments site.candidate with
  | some name =>
    (c.node.setName name, Entries.set books.1 site.path site.candidate.name, books.2)
  | none => (c.node, books)

/-- The new name of what the identifier at the cursor refers to. -/
def targetHere? (k : Knowledge) (resolver : Scope.Resolver) (c : Cursor Empty)
    (marks : Scope.Marks) : Option String := do
  let name ← c.node.name?
  if k.isAssigned name && Scope.isRenamable c.node.kind name c.ancestors then
    match resolver c.ancestors name marks with
    | .binding generated => some generated
    | _ => none
  else none

/-- Rename a declaration that is not a whole parameter. -/
def introduceHere (k : Knowledge) (c : Cursor Empty) (books : Books) : Node × Books :=
  if c.node.kind = .identifier then
    match k.site? c.path with
    | some site => if site.direct then (c.node, books) else k.declareHere site c books
    | none => (c.node, books)
  else (c.node, books)

/-- Rename a whole parameter or a reference. -/
def renameHere (k : Knowledge) (resolver : Scope.Resolver) (c : Cursor Empty) (books : Books) :
    Node × Books :=
  match k.site? c.path with
  | some site => if site.direct then k.declareHere site c books else (c.node, books)
  | none =>
    if (Entries.get? books.1 c.path).isSome then (c.node, books)
    else
      match k.targetHere? resolver c books.1 with
      | some generated => (c.node.setName generated, books.1, books.2 + 1)
      | none => (c.node, books)

/-- Rename a whole parameter or a reference, or write a shorthand property out. -/
def visitHere (k : Knowledge) (resolver : Scope.Resolver) (c : Cursor Empty) (books : Books) :
    Node × Books :=
  if c.node.kind = .property then
    if Progress.expands ⟨c.root, books.1, books.2⟩ k ⟨c.path, c.node⟩ then
      (c.node.setValue "shorthand" (.bool false), books)
    else (c.node, books)
  else if isNamed c.node then k.renameHere resolver c books
  else (c.node, books)

end Knowledge

/-- Mangle a tree by two walks over it. -/
def mangleByWalks (resolver : Scope.Resolver) (options : Options) (t : Node) :
    Except Stop (Node × Plan) :=
  let k := Knowledge.of options t
  match (editor k.introduceHere).run t.size t ([], 0) with
  | ⟨_, _, some stop⟩ => .error stop
  | ⟨tree, books, none⟩ =>
    match (editor (k.visitHere resolver)).run tree.size tree books with
    | ⟨_, _, some stop⟩ => .error stop
    | ⟨tree, (marks, references), none⟩ => .ok (tree, ⟨k.assignments, marks.length, references⟩)

/-! ## Their steps -/

/-- What an edit leaves alone: the kind, and what a traversal follows. -/
def Framed (n m : Node) : Prop := m.kind = n.kind ∧ ∀ name ∈ n.kind.fields, m.get? name = n.get? name

theorem Framed.refl (n : Node) : Framed n n := ⟨rfl, fun _ _ => rfl⟩

theorem framed_setName {n : Node} (h : isNamed n = true) (name : String) :
    Framed n (n.setName name) := by
  have hfields : n.kind.fields = [] := by
    rcases Bool.or_eq_true_iff.mp h with hkind | hkind
    · rw [eq_of_beq hkind]
      rfl
    · rw [eq_of_beq hkind]
      rfl
  refine ⟨rfl, fun field hfield => ?_⟩
  rw [hfields] at hfield
  cases hfield

theorem framed_expand {n : Node} (h : n.kind = .property) :
    Framed n (n.setValue "shorthand" (.bool false)) := by
  refine ⟨rfl, fun field hfield => get?_set_of_ne ?_⟩
  rintro rfl
  rw [h] at hfield
  exact absurd hfield (by decide)

/-- The tree and the books of a run. -/
def Progress.pair (p : Progress) : Node × Books := (p.tree, p.marks, p.references)

/-- What the first visitor does at a position. -/
def Progress.introduce (k : Knowledge) (p : Progress) (path : Path) : Progress :=
  match p.tree.at? path with
  | some node =>
    if node.kind = .identifier then
      match k.site? path with
      | some site => if site.direct then p else p.declare k site
      | none => p
    else p
  | none => p

theorem Knowledge.path_of_site? {k : Knowledge} {path : Path} {site : Site}
    (h : k.site? path = some site) : site.path = path := by
  simpa using List.find?_some h

section

variable {around : Surroundings} (ho : around.Open) (k : Knowledge) (n : Node) (books : Books)

/-- The cursor at the slot. -/
def cursorAt (around : Surroundings) (n : Node) : Cursor Empty :=
  { root := around.root, path := around.path, node := n }

/-- The run with a node in the slot. -/
def progressAt (around : Surroundings) (n : Node) (books : Books) : Progress :=
  ⟨around.wrap n, books.1, books.2⟩

/-- What is done to the whole tree is the edit of the node in the slot. -/
def Edits (around : Surroundings) (n : Node) (p : Progress) (edited : Node × Books) : Prop :=
  p.pair = (around.wrap edited.1, edited.2) ∧ Framed n edited.1

theorem edits_self : Edits around n (progressAt around n books) (n, books) := ⟨rfl, .refl n⟩

include ho

theorem edits_declare {site : Site} (hsite : k.site? around.path = some site)
    (hn : isNamed n = true) :
    Edits around n ((progressAt around n books).declare k site)
      (k.declareHere site (cursorAt around n) books) := by
  unfold Progress.declare Knowledge.declareHere
  cases generated? k.assignments site.candidate with
  | none => exact edits_self n books
  | some name =>
      refine ⟨?_, framed_setName hn name⟩
      simp only [Progress.pair, progressAt, k.path_of_site? hsite, Surroundings.modifyAt_path ho]
      rfl

/-- **One position of the first walk.** -/
theorem edits_introduce :
    Edits around n ((progressAt around n books).introduce k around.path)
      (k.introduceHere (cursorAt around n) books) := by
  unfold Progress.introduce Knowledge.introduceHere
  rw [show (progressAt around n books).tree.at? around.path = some n from
    Surroundings.at?_path ho n]
  show Edits around n (if n.kind = .identifier then _ else _) (if n.kind = .identifier then _ else _)
  split
  · rename_i hkind
    have hn : isNamed n = true := by simp [isNamed, hkind]
    show Edits around n (match k.site? around.path with | some site => _ | none => _)
      (match k.site? around.path with | some site => _ | none => _)
    cases hsite : k.site? around.path with
    | none => exact edits_self n books
    | some site =>
        dsimp only
        split
        · exact edits_self n books
        · exact edits_declare ho k n books hsite hn
  · exact edits_self n books

theorem target?_progressAt (resolver : Scope.Resolver) :
    (progressAt around n books).target? k resolver ⟨around.path, n⟩
      = k.targetHere? resolver (cursorAt around n) books.1 := by
  unfold Progress.target? Knowledge.targetHere?
  rw [show (progressAt around n books).tree.detach around.path = some (n, around.root) from
    Surroundings.detach_wrap ho n]
  rfl

theorem edits_rename (resolver : Scope.Resolver) (hn : isNamed n = true) :
    Edits around n ((progressAt around n books).rename k resolver ⟨around.path, n⟩)
      (k.renameHere resolver (cursorAt around n) books) := by
  unfold Progress.rename Knowledge.renameHere
  show Edits around n (match k.site? around.path with | some site => _ | none => _)
    (match k.site? around.path with | some site => _ | none => _)
  cases hsite : k.site? around.path with
  | some site =>
      dsimp only
      split
      · exact edits_declare ho k n books hsite hn
      · exact edits_self n books
  | none =>
      dsimp only
      show Edits around n (if (Entries.get? books.1 around.path).isSome = true then _ else _)
        (if (Entries.get? books.1 around.path).isSome = true then _ else _)
      split
      · exact edits_self n books
      · rw [target?_progressAt ho]
        cases k.targetHere? resolver (cursorAt around n) books.1 with
        | none => exact edits_self n books
        | some generated =>
            refine ⟨?_, framed_setName hn generated⟩
            simp only [Progress.refer, Progress.pair, progressAt, Surroundings.modifyAt_path ho]
            rfl

/-- **One position of the second walk.** -/
theorem edits_visit (resolver : Scope.Resolver) :
    Edits around n ((progressAt around n books).visit k resolver around.path)
      (k.visitHere resolver (cursorAt around n) books) := by
  unfold Progress.visit Knowledge.visitHere
  rw [show (progressAt around n books).tree.at? around.path = some n from
    Surroundings.at?_path ho n]
  dsimp only
  show Edits around n (if n.kind = .property then _ else _) (if n.kind = .property then _ else _)
  split
  · rename_i hkind
    rw [Progress.expand_eq]
    show Edits around n
      (if (progressAt around n books).expands k ⟨around.path, n⟩ = true then _ else _)
      (if (progressAt around n books).expands k ⟨around.path, n⟩ = true then _ else _)
    split
    · refine ⟨?_, framed_expand hkind⟩
      simp only [Progress.pair, progressAt, Surroundings.modifyAt_path ho]
      rfl
    · exact edits_self n books
  · show Edits around n (if isNamed n = true then _ else _) (if isNamed n = true then _ else _)
    split
    · rename_i hn
      exact edits_rename ho k n books resolver hn
    · exact edits_self n books

end

/-! ## The walks -/

/-- A walk of an editor takes the steps of a run, one at each position, and comes to its end. -/
theorem run_editor {edit : Cursor Empty → Books → Node × Books}
    {step : Progress → Path → Progress}
    (h : ∀ around : Surroundings, around.Open → ∀ n books,
      Edits around n (step (progressAt around n books) around.path) (edit (cursorAt around n) books))
    (p : Progress) :
    (editor edit).run p.tree.size p.tree (p.marks, p.references)
      = ⟨(p.tree.positions.foldl step p).tree,
          ((p.tree.positions.foldl step p).marks, (p.tree.positions.foldl step p).references),
          none⟩ := by
  have hsteps : (editor edit).StepsBy fun x path => (step ⟨x.1, x.2.1, x.2.2⟩ path).pair := by
    intro around ho n books
    obtain ⟨hstep, hframed⟩ := h around ho n books
    exact ⟨_, _, rfl, hstep, hframed.1, hframed.2⟩
  have hfold : p.tree.positions.foldl (fun x path => (step ⟨x.1, x.2.1, x.2.2⟩ path).pair) p.pair
      = (p.tree.positions.foldl step p).pair :=
    List.foldl_hom Progress.pair fun q path => rfl
  rw [Visitor.run_eq_foldl hsteps p.tree (Nat.le_refl _)]
  show (⟨(List.foldl _ p.pair _).1, (List.foldl _ p.pair _).2, none⟩ : Walked Books) = _
  rw [hfold]
  rfl

variable {t : Node} {k : Knowledge}

/-- Going through all positions is going through the sites. -/
theorem foldl_introduce (hk : k.sites = sites t) (l : List Occurrence)
    (hl : ∀ o ∈ l, o ∈ t.occurrences) (p : Progress) (hp : Respelled t p.tree) :
    (l.map (·.path)).foldl (Progress.introduce k) p
      = ((l.filterMap (site? t)).filter (!·.direct)).foldl (·.declare k ·) p := by
  induction l generalizing p with
  | nil => rfl
  | cons o l ih =>
      have hmet : t.met? o.path = some o.node := mem_occurrences_iff.mp (hl o List.mem_cons_self)
      have hrest : ∀ x ∈ l, x ∈ t.occurrences := fun x hx => hl x (List.mem_cons_of_mem _ hx)
      rw [List.map_cons, List.foldl_cons, List.filterMap_cons]
      cases hsite : site? t o with
      | none =>
          have hnone : k.site? o.path = none := by
            rw [Option.eq_none_iff_forall_ne_some]
            intro site hfound
            obtain ⟨hmem, hpath⟩ := (Knowledge.site?_eq_some_iff hk).mp hfound
            obtain ⟨n, hn, hat⟩ := mem_sites_iff.mp hmem
            rw [hpath] at hn hat
            rw [hmet] at hn
            cases hn
            rw [hsite] at hat
            cases hat
          have hsame : p.introduce k o.path = p := by
            unfold Progress.introduce
            rw [hnone]
            cases p.tree.at? o.path with
            | none => rfl
            | some node =>
                dsimp only
                split <;> rfl
          rw [hsame]
          exact ih hrest p hp
      | some site =>
          have hpath : site.path = o.path := (site?_eq_some_iff.mp hsite).2.2.1
          have hmem : site ∈ sites t := mem_sites_iff.mpr ⟨o.node, hpath ▸ hmet, hpath ▸ hsite⟩
          have hfound : k.site? o.path = some site :=
            (Knowledge.site?_eq_some_iff hk).mpr ⟨hmem, hpath⟩
          obtain ⟨m, hm, hrespelled⟩ := hp.met? hmet
          have hkind : m.kind = .identifier :=
            hrespelled.kind_eq.trans (site?_eq_some_iff.mp hsite).1
          have hstep : p.introduce k o.path = if site.direct then p else p.declare k site := by
            unfold Progress.introduce
            rw [at?_of_met? hm, hfound]
            simp only [hkind, if_true]
          rw [hstep, List.filter_cons]
          cases hdirect : site.direct with
          | true => exact ih hrest p hp
          | false =>
              obtain ⟨n, old, hn, hnamed, hname⟩ := hp.node_of_site hmem
              exact ih hrest _ (hp.trans (respelled_declare hn hnamed hname))

theorem introduceAll_eq (hk : k.sites = sites t) :
    t.positions.foldl (Progress.introduce k) { tree := t } = declareAll k t := by
  rw [positions, foldl_introduce hk t.occurrences (fun _ ho => ho) _ (.refl t), declareAll, hk]
  rfl

/-- The walks come to their ends, with the mangled tree. -/
theorem mangleByWalks_eq (resolver : Scope.Resolver) (options : Options) (t : Node) :
    mangleByWalks resolver options t = .ok (mangleWith resolver options t) := by
  have hfirst := run_editor
    (fun around ho n books => edits_introduce ho (Knowledge.of options t) n books) { tree := t }
  have hsecond := run_editor
    (fun around ho n books => edits_visit ho (Knowledge.of options t) n books resolver)
    (declareAll (Knowledge.of options t) t)
  dsimp only at hfirst
  rw [introduceAll_eq rfl] at hfirst
  unfold mangleByWalks
  simp only [hfirst, hsecond]
  rfl

/-- **What mangling changes.** Mangling comes to its end on every tree, also when it is carried out by
walks that edit the tree in place, and the mangled tree is the tree respelled. -/
theorem mangle_respells (options : Options) (t : Node) :
    mangleByWalks Scope.resolve options t = .ok (mangle options t) ∧
      Respelled t (mangle options t).1 :=
  ⟨mangleByWalks_eq Scope.resolve options t, respelled_mangleWith Scope.resolve options t⟩

end Minifier.Mangle
