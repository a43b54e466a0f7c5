import Mathlib.Data.List.Forall2
import Minifier.Proofs.Scope.Binders
import Minifier.Scope.Reference

/-!
# Trees that look alike

Renaming keeps what bindings are found from: the kinds of nodes, what they hold, and a few fields. While
a reference is resolved its own slot is empty, too. So that one proof covers both, two trees
*resemble* each other up to a gap: below it the second tree holds nothing, and everywhere else it has a
node that looks alike where the first has one.

Between such trees every enumeration of bindings gives the same list, but for what lies in the gap
(`Thinned`, `thinned_visible`), and an identifier refers to a binding in the one iff in the other
(`isRenamable_eq`).
-/

namespace Minifier

open Occurrence

/-! ## Resemblance -/

/-- All text and flags agree. -/
structure Node.SameText (n m : Node) : Prop where
  kind : m.kind = n.kind
  text : ∀ field, m.text? field = n.text? field
  flag : ∀ field, m.flag field = n.flag field

/-- What scopes depend on agrees: the kind, `var` or not, and whether a key is computed. -/
structure Node.Alike (n m : Node) : Prop where
  kind : m.kind = n.kind
  declared : m.text? "kind" = n.text? "kind"
  computed : m.flag "computed" = n.flag "computed"

theorem Node.SameText.alike {n m : Node} (h : n.SameText m) : n.Alike m :=
  ⟨h.kind, h.text _, h.flag _⟩

theorem Node.SameText.refl (n : Node) : n.SameText n := ⟨rfl, fun _ => rfl, fun _ => rfl⟩

/-- The position lies at or below the gap. -/
def Concealed (gap : Option Path) (p : Path) : Prop := ∃ q, gap = some q ∧ q <+: p

theorem not_concealed_none (p : Path) : ¬ Concealed none p := fun ⟨_, h, _⟩ => nomatch h

theorem Concealed.extend {gap : Option Path} {p q : Path} (h : Concealed gap p) (hpq : p <+: q) :
    Concealed gap q := by
  obtain ⟨r, hr, hpre⟩ := h
  exact ⟨r, hr, hpre.trans hpq⟩

/-- What stands at a position of two trees that resemble each other. -/
inductive Matches (R : Node → Node → Prop) (concealed : Prop) : Option Node → Option Node → Prop
  | gone {n : Option Node} (h : concealed) : Matches R concealed n none
  | absent : Matches R concealed none none
  | present {n m : Node} (hshown : ¬ concealed) (h : R n m) : Matches R concealed (some n) (some m)

theorem Matches.imp {R S : Node → Node → Prop} {concealed : Prop} {x y : Option Node}
    (h : Matches R concealed x y) (himp : ∀ n m, R n m → S n m) : Matches S concealed x y := by
  cases h with
  | gone h => exact .gone h
  | absent => exact .absent
  | present hshown h => exact .present hshown (himp _ _ h)

theorem Matches.trans {concealed concealed' : Prop} {x y z : Option Node}
    (h : Matches Node.Alike concealed x y) (hshown : ¬ concealed)
    (h' : Matches Node.Alike concealed' y z) : Matches Node.Alike concealed' x z := by
  cases h with
  | gone h => exact absurd h hshown
  | absent => exact h'
  | present _ h =>
      cases h' with
      | gone h' => exact .gone h'
      | present hshown' h' =>
          exact .present hshown' ⟨h'.kind.trans h.kind, h'.declared.trans h.declared,
            h'.computed.trans h.computed⟩

theorem Matches.isNone_eq {R : Node → Node → Prop} {concealed : Prop} {x y : Option Node}
    (h : Matches R concealed x y) (hshown : ¬ concealed) : y.isNone = x.isNone := by
  cases h with
  | gone h => exact absurd h hshown
  | absent => rfl
  | present _ _ => rfl

/-- The second tree has, outside the gap, related nodes in the same places as the first. -/
def Node.Resembles (R : Node → Node → Prop) (gap : Option Path) (t t' : Node) : Prop :=
  ∀ p, Matches R (Concealed gap p) (t.at? p) (t'.at? p)

theorem Node.Resembles.alike {gap : Option Path} {t t' : Node} (h : t.Resembles SameText gap t') :
    t.Resembles Alike gap t' :=
  fun p => (h p).imp fun _ _ => SameText.alike

/-- Resemblance without a gap can be put in front. -/
theorem Node.Resembles.trans {gap : Option Path} {t p d : Node} (h : t.Resembles Alike none p)
    (h' : p.Resembles Alike gap d) : t.Resembles Alike gap d :=
  fun q => (h q).trans (not_concealed_none q) (h' q)

/-- A node with one slot filled differently resembles the node, if it does below the slot. -/
theorem Node.resembles_fill {n c : Node} {step : Step} {content : Option Node} {q : Path}
    (hstep : n.step? step = some c)
    (hbelow : ∀ p, Matches SameText (Concealed (some (step :: q)) (step :: p))
      (n.at? (step :: p)) ((n.fill step content).at? (step :: p))) :
    n.Resembles SameText (some (step :: q)) (n.fill step content) := by
  intro p
  cases p with
  | nil =>
      refine .present ?_ ⟨kind_fill .., text?_fill hstep content, flag_fill hstep content⟩
      rintro ⟨r, hr, hpre⟩
      cases hr
      exact List.cons_ne_nil _ _ (List.prefix_nil.mp hpre)
  | cons other p =>
      by_cases hother : other = step
      · subst hother
        exact hbelow p
      · -- The other slots are as they were.
        have hsame : (n.fill step content).at? (other :: p) = n.at? (other :: p) := by
          rw [at?_cons, at?_cons, step?_fill_of_ne hstep hother]
        rw [hsame]
        cases hat : n.at? (other :: p) with
        | none => exact .absent
        | some m =>
            refine .present ?_ (SameText.refl m)
            rintro ⟨r, hr, hpre⟩
            cases hr
            exact hother (List.cons_prefix_cons.mp hpre).1.symm

theorem concealed_cons (step : Step) (q p : Path) :
    Concealed (some (step :: q)) (step :: p) ↔ Concealed (some q) p := by
  simp [Concealed, List.cons_prefix_cons]

/-- A tree with a slot emptied resembles the tree, up to the slot. -/
theorem Node.resembles_detach {t x rest : Node} {q : Path} (hq : q ≠ [])
    (h : t.detach q = some (x, rest)) : t.Resembles SameText (some q) rest := by
  induction q generalizing t x rest with
  | nil => exact absurd rfl hq
  | cons step q ih =>
      cases q with
      | nil =>
          -- The slot is one of the root.
          obtain ⟨c, hstep, hpair⟩ := Option.map_eq_some_iff.mp h
          cases hpair
          apply resembles_fill hstep
          intro p
          rw [at?_cons (t.fill step none), step?_fill_none hstep]
          exact .gone ⟨[step], rfl, List.cons_prefix_cons.mpr ⟨rfl, ⟨p, rfl⟩⟩⟩
      | cons next q =>
          -- The slot lies below a child, which is emptied first and then put back.
          obtain ⟨c, hstep, hrest⟩ := Option.bind_eq_some_iff.mp h
          obtain ⟨⟨taken, left⟩, hdetach, hpair⟩ := Option.bind_eq_some_iff.mp hrest
          cases hpair
          apply resembles_fill hstep
          intro p
          rw [at?_cons, at?_cons, hstep, step?_fill hstep, concealed_cons]
          exact ih (List.cons_ne_nil _ _) hdetach p

/-! ## Lists of similar occurrences -/

/-- Two occurrences at the same position whose trees resemble each other. -/
structure Occurrence.Similar (gap : Option Path) (o o' : Occurrence) : Prop where
  path : o'.path = o.path
  node : ∀ q, Matches Node.Alike (Concealed gap (o.path ++ q)) (o.node.at? q) (o'.node.at? q)

/-- The second list has similar occurrences, in order, but for some that lie in the gap. -/
inductive Thinned (gap : Option Path) : List Occurrence → List Occurrence → Prop
  | nil : Thinned gap [] []
  | keep {o o' : Occurrence} {l l' : List Occurrence} (h : o.Similar gap o')
      (hl : Thinned gap l l') : Thinned gap (o :: l) (o' :: l')
  | drop {o : Occurrence} {l l' : List Occurrence} (h : Concealed gap o.path)
      (hl : Thinned gap l l') : Thinned gap (o :: l) l'

variable {gap : Option Path}

theorem Thinned.append {l l' m m' : List Occurrence} (hl : Thinned gap l l')
    (hm : Thinned gap m m') : Thinned gap (l ++ m) (l' ++ m') := by
  induction hl with
  | nil => exact hm
  | keep h _ ih => exact .keep h ih
  | drop h _ ih => exact .drop h ih

/-- A list in the gap is thinned to nothing. -/
theorem thinned_nil {l : List Occurrence} (h : ∀ o ∈ l, Concealed gap o.path) : Thinned gap l [] := by
  induction l with
  | nil => exact .nil
  | cons o l ih =>
      exact .drop (h o List.mem_cons_self) (ih fun x hx => h x (List.mem_cons_of_mem _ hx))

/-- What is enumerated piece by piece is thinned if each piece is. -/
theorem thinned_pieces {ι : Type} {f g : ι → List Occurrence} (l : List ι)
    (h : ∀ i ∈ l, Thinned gap (f i) (g i)) : Thinned gap (l.flatMap f) (l.flatMap g) := by
  induction l with
  | nil => exact .nil
  | cons i l ih =>
      rw [List.flatMap_cons, List.flatMap_cons]
      exact (h i List.mem_cons_self).append (ih fun j hj => h j (List.mem_cons_of_mem _ hj))

/-- What is enumerated below similar occurrences is thinned if it is below each. -/
theorem Thinned.flatMap {f : Occurrence → List Occurrence} {l l' : List Occurrence}
    (hl : Thinned gap l l')
    (hf : ∀ o ∈ l, ∀ o', o.Similar gap o' → Thinned gap (f o) (f o'))
    (hbelow : ∀ o, ∀ x ∈ f o, o.Contains x) : Thinned gap (l.flatMap f) (l'.flatMap f) := by
  induction hl with
  | nil => exact .nil
  | @keep o o' l l' h _ ih =>
      rw [List.flatMap_cons, List.flatMap_cons]
      exact (hf o List.mem_cons_self o' h).append
        (ih fun x hx => hf x (List.mem_cons_of_mem _ hx))
  | @drop o l l' h _ ih =>
      rw [List.flatMap_cons]
      exact (thinned_nil fun x hx => h.extend (hbelow o x hx).isPrefixOf).append
        (ih fun x hx => hf x (List.mem_cons_of_mem _ hx))

/-! ## One step down -/

namespace Occurrence.Similar

/-- The occurrences themselves are not in the gap, and look alike. -/
theorem alike {o o' : Occurrence} (h : o.Similar gap o') : o.node.Alike o'.node := by
  have hroot := h.node []
  rw [List.append_nil, Node.at?_nil, Node.at?_nil] at hroot
  cases hroot with
  | present _ h => exact h

theorem step {o o' : Occurrence} (h : o.Similar gap o') (step : Step) :
    Matches Node.Alike (Concealed gap (o.path ++ [step])) (o.node.step? step)
      (o'.node.step? step) := by
  have hone := h.node [step]
  rwa [Node.at?_cons, Node.at?_cons, show (Node.at? · []) = some from rfl, Option.bind_fun_some,
    Option.bind_fun_some] at hone

end Occurrence.Similar

/-- The child past a step, as a list of one or none. -/
def past (o : Occurrence) (step : Step) : List Occurrence :=
  ((o.node.step? step).map fun c => o.along (step, c)).toList

theorem thinned_past {o o' : Occurrence} (h : o.Similar gap o') (step : Step) :
    Thinned gap (past o step) (past o' step) := by
  have hbelow (q : Path) : Matches Node.Alike (Concealed gap (o.path ++ [step] ++ q))
      ((o.node.step? step).bind (·.at? q)) ((o'.node.step? step).bind (·.at? q)) := by
    have := h.node (step :: q)
    rwa [Node.at?_cons, Node.at?_cons, List.append_cons] at this
  have hchild := h.step step
  unfold past
  generalize o.node.step? step = c, o'.node.step? step = c' at hbelow hchild ⊢
  cases c with
  | none =>
      cases c' with
      | none => exact .nil
      | some m => cases hchild
  | some n =>
      cases c' with
      | none =>
          cases hchild with
          | gone hconcealed => exact .drop hconcealed .nil
      | some m =>
          cases hchild with
          | present _ _ =>
              refine .keep ⟨?_, hbelow⟩ .nil
              show o'.path ++ [step] = o.path ++ [step]
              rw [h.path]

theorem thinned_child? {o o' : Occurrence} (h : o.Similar gap o') (field : String) :
    Thinned gap (o.child? field).toList (o'.child? field).toList :=
  thinned_past h ⟨field, none⟩

/-- The entries of a list with their places, place by place. -/
theorem filterMap_zipIdx {α β : Type} (g : α × Nat → Option β) (l : List α) {n : Nat}
    (hn : l.length ≤ n) :
    l.zipIdx.filterMap g
      = (List.range n).flatMap fun i => (l[i]?.bind fun a => g (a, i)).toList := by
  induction l generalizing g n with
  | nil => simp
  | cons a l ih =>
      obtain ⟨m, rfl⟩ : ∃ m, n = m + 1 := ⟨n - 1, by simp at hn; omega⟩
      have hm : l.length ≤ m := by simpa using hn
      rw [List.zipIdx_cons, List.range_succ_eq_map, List.flatMap_cons, List.flatMap_map,
        List.zipIdx_succ, List.filterMap_cons, List.filterMap_map]
      have hrest := ih (fun entry => g (entry.1, entry.2 + 1)) hm
      simp only [List.getElem?_cons_zero, List.getElem?_cons_succ, Option.bind_some]
      rw [← hrest]
      cases g (a, 0) <;> rfl

theorem children_eq (o : Occurrence) (field : String) {n : Nat}
    (hn : ((o.node.slots? field).getD []).length ≤ n) :
    o.children field = (List.range n).flatMap fun i => past o ⟨field, some i⟩ := by
  unfold Occurrence.children
  rw [filterMap_zipIdx _ _ hn]
  congr 1
  funext i
  unfold past Node.step?
  cases o.node.slots? field with
  | none => rfl
  | some slots =>
      simp only [Option.getD_some, Option.bind_some]
      cases slots[i]? <;> rfl

theorem thinned_children {o o' : Occurrence} (h : o.Similar gap o') (field : String) :
    Thinned gap (o.children field) (o'.children field) := by
  rw [children_eq o field (Nat.le_max_left _ _), children_eq o' field (Nat.le_max_right _ _)]
  exact thinned_pieces _ fun i _ => thinned_past h ⟨field, some i⟩

theorem thinned_visited {o o' : Occurrence} (h : o.Similar gap o') :
    Thinned gap o.visited o'.visited := by
  rw [visited_eq, visited_eq, h.alike.kind]
  exact thinned_pieces _ fun field _ => (thinned_child? h field).append (thinned_children h field)

/-! ## Enumerations -/

theorem thinned_patternParts {o o' : Occurrence} (h : o.Similar gap o') :
    Thinned gap o.patternParts o'.patternParts := by
  unfold patternParts
  rw [h.alike.kind]
  split
  · refine (thinned_children h _).flatMap (fun property _ property' h => ?_) ?_
    · rw [h.alike.kind]
      split
      · exact thinned_child? h _
      · exact .keep h .nil
    · intro property x hx
      split at hx
      · exact contains_of_child? (Option.mem_toList.mp hx)
      · rw [List.mem_singleton.mp hx]
        exact Contains.refl property
  · exact thinned_children h _
  · exact thinned_child? h _
  · exact thinned_child? h _
  · exact .nil

theorem thinned_bindings {o o' : Occurrence} (h : o.Similar gap o') :
    Thinned gap o.bindings o'.bindings := by
  induction o using bindings_induction generalizing o' with
  | step o ih =>
      rw [bindings_eq, bindings_eq, h.alike.kind]
      split
      · exact .keep h .nil
      · exact (thinned_patternParts h).flatMap (fun x hx x' h => ih x hx h)
          fun o x hx => contains_of_mem_bindings hx

theorem getD_map_eq (o : Option Occurrence) (f : Occurrence → List Occurrence) :
    (o.map f).getD [] = o.toList.flatMap f := by
  cases o <;> simp

theorem thinned_declared {o o' : Occurrence} (h : o.Similar gap o') :
    Thinned gap o.declared o'.declared := by
  unfold declared
  refine (thinned_children h _).flatMap (fun d _ d' h => ?_) fun d x hx => ?_
  · rw [getD_map_eq, getD_map_eq]
    exact (thinned_child? h _).flatMap (fun root _ root' h => thinned_bindings h)
      fun o x hx => contains_of_mem_bindings hx
  · obtain ⟨root, hroot, hx⟩ := Scope.mem_getD_map.mp hx
    exact (contains_of_child? hroot).trans (contains_of_mem_bindings hx)

theorem thinned_hoisted {o o' : Occurrence} (h : o.Similar gap o') :
    Thinned gap o.hoisted o'.hoisted := by
  induction o using visited_induction generalizing o' with
  | step o ih =>
      rw [hoisted_eq, hoisted_eq, h.alike.kind, h.alike.declared]
      refine Thinned.append ?_ ?_
      · split
        · exact thinned_declared h
        · exact .nil
      · refine (thinned_visited h).flatMap (fun c hc c' h => ?_) fun c x hx => ?_
        · rw [h.alike.kind]
          split
          · exact .nil
          · exact ih c hc h
        · split at hx
          · cases hx
          · exact contains_of_mem_hoisted hx

theorem thinned_statementBindings {o o' : Occurrence} (h : o.Similar gap o') :
    Thinned gap o.statementBindings o'.statementBindings := by
  induction o using exported_induction generalizing o' with
  | step o ih =>
      have hexported : Thinned gap ((o.child? "declaration").toList.flatMap statementBindings)
          ((o'.child? "declaration").toList.flatMap statementBindings) :=
        (thinned_child? h _).flatMap
          (fun x hx x' h => ih x (Option.mem_toList.mp hx) h)
          fun o x hx => contains_of_mem_statementBindings hx
      rw [statementBindings_eq, statementBindings_eq, h.alike.kind]
      split
      · exact thinned_declared h
      · exact thinned_child? h _
      · exact thinned_child? h _
      · exact hexported
      · exact hexported
      · rw [List.filterMap_eq_flatMap_toList, List.filterMap_eq_flatMap_toList]
        exact (thinned_children h _).flatMap (fun s _ s' h => thinned_child? h _)
          fun s x hx => contains_of_child? (Option.mem_toList.mp hx)
      · exact .nil

theorem thinned_statements {l l' : List Occurrence} (hl : Thinned gap l l') :
    Thinned gap (l.flatMap statementBindings) (l'.flatMap statementBindings) :=
  hl.flatMap (fun _ _ _ h => thinned_statementBindings h)
    fun _ _ hx => contains_of_mem_statementBindings hx

theorem thinned_patterns {l l' : List Occurrence} (hl : Thinned gap l l') :
    Thinned gap (l.flatMap bindings) (l'.flatMap bindings) :=
  hl.flatMap (fun _ _ _ h => thinned_bindings h)
    fun _ _ hx => contains_of_mem_bindings hx

theorem thinned_visibleBindings {o o' : Occurrence} (h : o.Similar gap o') :
    Thinned gap o.visibleBindings o'.visibleBindings := by
  unfold visibleBindings
  simp only [getD_map_eq, h.alike.kind]
  split
  · refine ((thinned_patterns (thinned_children h _)).append ?_).append (thinned_child? h _)
    exact (thinned_child? h _).flatMap (fun _ _ _ h => thinned_hoisted h)
      fun _ _ hx => contains_of_mem_hoisted hx
  · split
    · exact thinned_child? h _
    · split
      · exact (thinned_statements (thinned_children h _)).append (thinned_hoisted h)
      · exact thinned_statements (thinned_children h _)
      · exact thinned_statements (thinned_children h _)
      · refine (thinned_children h _).flatMap
          (fun _ _ _ h => thinned_statements (thinned_children h _)) fun arm x hx => ?_
        obtain ⟨s, hs, hx⟩ := List.mem_flatMap.mp hx
        exact (contains_of_mem_children hs).trans (contains_of_mem_statementBindings hx)
      · exact thinned_statements (thinned_child? h _)
      · exact thinned_statements (thinned_child? h _)
      · exact thinned_statements (thinned_child? h _)
      · exact thinned_patterns (thinned_child? h _)
      · exact .nil

/-- A traversal meets the same positions, but for those in the gap. -/
theorem thinned_below {o o' : Occurrence} (h : o.Similar gap o') : Thinned gap o.below o'.below := by
  induction o using visited_induction generalizing o' with
  | step o ih =>
      rw [below_eq, below_eq]
      refine .keep h ((thinned_visited h).flatMap
        (fun c hc c' h => ih c hc h) fun c x hx => ?_)
      obtain ⟨q, hpath, hmet⟩ := mem_below_iff.mp hx
      exact ⟨q, hpath, Node.at?_of_met? hmet⟩

/-! ## Ancestors -/

/-- Ancestors at the same position that are left by the same step. -/
structure Ancestor.Similar (gap : Option Path) (a a' : Ancestor) : Prop where
  step : a'.step = a.step
  occurrence : a.occurrence.Similar gap a'.occurrence

theorem Ancestor.Similar.kind {a a' : Ancestor} (h : a.Similar gap a') : a'.kind = a.kind :=
  h.occurrence.alike.kind

theorem Ancestor.Similar.field {a a' : Ancestor} (h : a.Similar gap a') : a'.field = a.field :=
  congrArg Step.field h.step

variable {t t' : Node}

theorem similar_of_resembles (h : t.Resembles Node.Alike gap t') {p : Path} {n n' : Node}
    (hn : t.at? p = some n) (hn' : t'.at? p = some n') :
    Occurrence.Similar gap ⟨p, n⟩ ⟨p, n'⟩ := by
  refine ⟨rfl, fun q => ?_⟩
  have := h (p ++ q)
  rwa [Node.at?_append, Node.at?_append, hn, hn'] at this

/-- A position whose way down does not lead into the gap has similar ancestors. -/
theorem similar_ancestors (h : t.Resembles Node.Alike gap t') {p : Path} {n : Node}
    (hp : t.at? p = some n) (hshown : ∀ r, r <+: p → r ≠ p → ¬ Concealed gap r) :
    List.Forall₂ (Ancestor.Similar gap) (t.ancestors p) (t'.ancestors p) := by
  induction p using List.reverseRecOn generalizing n with
  | nil => exact .nil
  | append_singleton p step ih =>
      have hproper : p ≠ p ++ [step] := fun he => by simpa using congrArg List.length he
      have hshownp := hshown p (List.prefix_append ..) hproper
      rw [Node.at?_append] at hp
      obtain ⟨m, hm, _⟩ := Option.bind_eq_some_iff.mp hp
      have hpair := h p
      rw [hm] at hpair
      cases hm' : t'.at? p with
      | none =>
          rw [hm'] at hpair
          cases hpair with
          | gone hconcealed => exact absurd hconcealed hshownp
      | some m' =>
          rw [Node.ancestors_concat hm, Node.ancestors_concat hm']
          refine .cons ⟨rfl, similar_of_resembles h hm hm'⟩ (ih hm fun r hr hne => ?_)
          refine hshown r (hr.trans (List.prefix_append ..)) fun he => hproper ?_
          rw [he] at hr
          exact (List.prefix_append p [step]).eq_of_length_le hr.length_le

/-- A position has similar ancestors, if its own slot is the gap or there is none. -/
theorem similar_ancestors_of_gap (h : t.Resembles Node.Alike gap t') {p : Path} {n : Node}
    (hp : t.at? p = some n) (hgap : ∀ q, gap = some q → q = p) :
    List.Forall₂ (Ancestor.Similar gap) (t.ancestors p) (t'.ancestors p) := by
  refine similar_ancestors h hp fun r hr hne hconcealed => ?_
  obtain ⟨q, hq, hpre⟩ := hconcealed
  rw [hgap q hq] at hpre
  exact hne (hr.eq_of_length_le hpre.length_le)

theorem thinned_visible {l l' : List Ancestor} (h : List.Forall₂ (Ancestor.Similar gap) l l') :
    Thinned gap (Scope.visible l) (Scope.visible l') := by
  unfold Scope.visible
  induction h with
  | nil => exact .nil
  | cons h _ ih =>
      rw [List.flatMap_cons, List.flatMap_cons]
      exact (thinned_visibleBindings h.occurrence).append ih

namespace Scope

theorem isPatternStep_eq {a a' : Ancestor} {parent parent' : Option Ancestor}
    (h : a.Similar gap a') (hparent : parent'.map (·.kind) = parent.map (·.kind)) :
    isPatternStep a' parent' = isPatternStep a parent := by
  have hany : (parent'.any (·.kind == .objectPattern)) = parent.any (·.kind == .objectPattern) := by
    have (o : Option Ancestor) : o.any (·.kind == .objectPattern)
        = (o.map (·.kind)).any (· == .objectPattern) := by cases o <;> rfl
    rw [this, this, hparent]
  unfold isPatternStep
  rw [h.kind, h.field, hany]

theorem patternDepth_eq {l l' : List Ancestor} (h : List.Forall₂ (Ancestor.Similar gap) l l') :
    patternDepth l' = patternDepth l := by
  induction h with
  | nil => rfl
  | @cons a a' l l' h hl ih =>
      have hparent : l'.head?.map (·.kind) = l.head?.map (·.kind) := by
        cases hl with
        | nil => rfl
        | cons h _ => exact congrArg some h.kind
      rw [patternDepth, patternDepth, isPatternStep_eq h hparent, ih]

theorem isFixedBinding_eq {l l' : List Ancestor} (h : List.Forall₂ (Ancestor.Similar gap) l l') :
    isFixedBinding l' = isFixedBinding l := by
  unfold isFixedBinding
  have hdrop := List.forall₂_drop (patternDepth l) h
  rw [patternDepth_eq h]
  generalize l.drop _ = m, l'.drop _ = m' at hdrop ⊢
  cases hdrop with
  | nil => rfl
  | cons h _ =>
      simp only [List.head?_cons]
      rw [h.kind, h.field]

/-- The source of an export lies beside its specifiers, and so never in the gap. -/
theorem source_isNone_eq (h : t.Resembles Node.Alike gap t') {p : Path} {n : Node}
    (hp : t.at? p = some n) (hgap : ∀ q, gap = some q → q = p) {parent parent' : Ancestor}
    {above above' : List Ancestor} (habove : t.ancestors p = parent :: above)
    (habove' : t'.ancestors p = parent' :: above') :
    (above'.head?.all fun exporter => (exporter.node.child? "source").isNone)
      = above.head?.all fun exporter => (exporter.node.child? "source").isNone := by
  have hsimilar := similar_ancestors_of_gap h hp hgap
  rw [habove, habove'] at hsimilar
  obtain ⟨_, habovesimilar⟩ := List.forall₂_cons.mp hsimilar
  cases habovesimilar with
  | nil => rfl
  | @cons e e' above above' he _ =>
      obtain ⟨hparent, hrest, hat⟩ := Node.eq_of_ancestors_eq_cons hp habove
      obtain ⟨hexporter, _, _⟩ := Node.eq_of_ancestors_eq_cons hat hrest.symm
      have hshown : ¬ Concealed gap (e.path ++ [⟨"source", none⟩]) := by
        rintro ⟨q, hq, hpre⟩
        -- The gap is two steps below the export, and the source one.
        have hlong := hpre.length_le
        rw [hgap q hq, hparent, hexporter] at hlong
        simp only [List.length_append, List.length_singleton] at hlong
        omega
      exact (he.occurrence.step ⟨"source", none⟩).isNone_eq hshown

/-- Whether an identifier is a reference is the same in both trees, if its own slot is the gap or there is
none. -/
theorem isRenamable_eq (h : t.Resembles Node.Alike gap t') {p : Path} {n : Node}
    (hp : t.at? p = some n) (hgap : ∀ q, gap = some q → q = p) (kind : Kind) (name : String) :
    isRenamable kind name (t'.ancestors p) = isRenamable kind name (t.ancestors p) := by
  have hsimilar := similar_ancestors_of_gap h hp hgap
  have hfixed := isFixedBinding_eq hsimilar
  unfold isRenamable
  cases hl : t.ancestors p with
  | nil =>
      rw [hl] at hsimilar
      rw [List.forall₂_nil_left_iff.mp hsimilar]
  | cons parent above =>
      cases hl' : t'.ancestors p with
      | nil => rw [hl, hl'] at hsimilar; cases hsimilar
      | cons parent' above' =>
          have hsrc := source_isNone_eq h hp hgap hl hl'
          rw [hl, hl'] at hsimilar hfixed
          have hparent := (List.forall₂_cons.mp hsimilar).1
          simp only [hfixed]
          unfold isMarkupReference isPlainReference
          rw [hparent.kind, hparent.field, hsrc, show parent'.node.flag "computed"
            = parent.node.flag "computed" from hparent.occurrence.alike.computed]

end Scope

end Minifier
