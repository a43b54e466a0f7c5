import Minifier.Edit.Walk
import Minifier.Proofs.Identity.Patch

/-!
# What a visitor can do with nodes

A visitor of a tree with identities works on a `Scene`: the cursor, a state of its own, and all the trees that
it has at hand. A `Script` is what it does there, step by step. It may look at everything, identities included,
and what it does next may depend on what it saw and on how its last step went. But nodes can be had only in the
ways of a `Verb`: made from a source, moved from one place to another, merged with a patch, put in the place of
the node of the position, or dropped.

What a script does is `Conduct`: it conserves identities, it leaves the node of its position alone unless it
decides on the position or writes to the node, in writing it leaves the node's identity alone unless it
exchanges the node for another, and on the root it cannot decide (`conduct_play`).
-/

namespace Minifier.Tagged

/-- What a visitor decided for a position. -/
inductive Outcome where
  | kept
  /-- the node was replaced; what replaces it is not visited -/
  | replaced
  | removed
  /-- several trees take the place of one in a list -/
  | spliced (trees : List Tagged)

/-- A visitor's view of a position. -/
structure Cursor (η : Type) where
  /-- the tree, with the slot of the position empty -/
  root : Tagged
  path : Path
  /-- the node of the position -/
  node : Tagged
  outcome : Outcome := .kept
  hook : Option η := none
  /-- the node was written to, rather than decided on -/
  edited : Bool := false
  /-- in writing, the node was exchanged for another one -/
  exchanged : Bool := false

/-- A cursor, the visitor's own state, and the trees at hand. -/
abbrev Scene (σ η : Type) := Cursor η × σ × Forest

/-- One step of a visitor. -/
inductive Verb (σ η : Type) where
  /-- write the visitor's state -/
  | remember (state : σ)
  /-- make a tree, before all others at hand -/
  | make (source : Source)
  /-- drop the first tree at hand -/
  | drop
  /-- rearrange the node of the position together with the trees at hand -/
  | rearrange (r : Rearrangement)
  /-- put the first tree at hand in the place of the node -/
  | replace
  /-- put the first trees at hand in the place of the node, the last one made last -/
  | splice (count : Nat)
  | remove
  | patch (deep : Bool) (json : Json)
  | onLeave (hook : η)

/-- What a visitor does at a position. -/
inductive Script (σ η : Type) where
  | done
  | fail (error : Error)
  | look (next : Scene σ η → Script σ η)
  | verb (v : Verb σ η) (next : Option Error → Script σ η)

/-- A visitor: what it does on meeting a position, and what its hooks do on leaving it. -/
structure Visitor (σ η : Type) where
  enter : Script σ η
  leave : η → Script σ η

variable {σ τ η : Type}

namespace Outcome

/-- The trees that are to take the place of one. -/
def trees : Outcome → List Tagged
  | .spliced trees => trees
  | _ => []

def forget : Outcome → Minifier.Outcome
  | .kept => .kept
  | .replaced => .replaced
  | .removed => .removed
  | .spliced trees => .spliced (trees.map Tagged.forget)

end Outcome

namespace Cursor

/-- The identities in the hands of a cursor. -/
def ids (c : Cursor η) : List Nat := c.node.ids ++ idsOfTrees c.outcome.trees

/-- The position is the root, which stands in no slot. -/
def isRoot (c : Cursor η) : Bool := c.path.isEmpty

/-- The slot of a list that holds the position. -/
def index? (c : Cursor η) : Option Nat := c.path.getLast?.bind (·.index)

def forget (c : Cursor η) : Minifier.Cursor η :=
  ⟨c.root.forget, c.path, c.node.forget, c.outcome.forget, c.hook⟩

end Cursor

/-- Do one step, and tell whether it failed. With no tree at hand there is nothing to put anywhere. -/
def Verb.run : Verb σ η → Scene σ η → Option Error × Scene σ η
  | .remember state, (c, _, forest) => (none, c, state, forest)
  | .make source, (c, s, forest) =>
    match forest.make source with
    | .ok forest => (none, c, s, forest)
    | .error error => (some error, c, s, forest)
  | .drop, (c, s, forest) => (none, c, s, { forest with trees := forest.trees.tail })
  | .rearrange r, (c, s, forest) =>
    match r.move (c.node :: forest.trees) with
    | [] => (none, c, s, forest)
    | node :: trees =>
      let exchanged := c.exchanged || node.id != c.node.id
      (none, { c with node, edited := true, exchanged }, s, { forest with trees })
  | .replace, (c, s, forest) =>
    match forest.trees with
    | [] => (none, c, s, forest)
    | node :: trees =>
      if c.isRoot then (some (.edit .replaceRoot), c, s, { forest with trees })
      else (none, { c with node, outcome := .replaced }, s, { forest with trees })
  | .splice count, (c, s, forest) =>
    let taken := (forest.trees.take count).reverse
    let forest := { forest with trees := forest.trees.drop count }
    if c.index?.isNone then (some (.edit (.spliceOutsideList taken.length)), c, s, forest)
    else (none, { c with outcome := .spliced taken }, s, forest)
  | .remove, (c, s, forest) =>
    if c.isRoot then (some (.edit .removeRoot), c, s, forest)
    else (none, { c with outcome := .removed }, s, forest)
  | .patch deep json, (c, s, forest) =>
    let (made, next) := Patch.apply deep c.node forest.next json
    (made.error, { c with node := made.result, edited := true }, s, { forest with next })
  | .onLeave hook, (c, s, forest) => (none, { c with hook := some hook }, s, forest)

namespace Script

/-- Do all steps, up to the end or to where the visitor fails. -/
def play : Script σ η → Scene σ η → Option Error × Scene σ η
  | .done, scene => (none, scene)
  | .fail error, scene => (some error, scene)
  | .look next, scene => (next scene).play scene
  | .verb v next, scene => (next (v.run scene).1).play (v.run scene).2

/-- Do a step and go on, or fail as it does. -/
def after (v : Verb σ η) (next : Script σ η) : Script σ η :=
  .verb v fun
    | none => next
    | some error => .fail error

end Script

/-! ## Conduct -/

/-- What comes of a scene when a visitor acts. -/
structure Conduct (before after : Scene σ η) : Prop where
  path_eq : after.1.path = before.1.path
  conserved : Conserved before.2.2.next after.2.2.next (before.1.ids ++ before.2.2.ids)
    (after.1.ids ++ after.2.2.ids)
  /-- what is kept, and not written to, stays as it is -/
  node_of_kept : after.1.outcome = .kept → after.1.edited = false →
    before.1.outcome = .kept ∧ before.1.edited = false ∧ after.1.node = before.1.node
  /-- a node that is kept, and not exchanged, is the same node -/
  id_of_kept : after.1.outcome = .kept → after.1.exchanged = false →
    before.1.outcome = .kept ∧ before.1.exchanged = false ∧ after.1.node.id = before.1.node.id
  /-- the root is kept -/
  kept_of_root : before.1.path = [] → before.1.outcome = .kept → after.1.outcome = .kept

namespace Conduct

theorem refl (scene : Scene σ η) : Conduct scene scene :=
  ⟨rfl, .refl .., fun hkept hunedited => ⟨hkept, hunedited, rfl⟩,
    fun hkept hsame => ⟨hkept, hsame, rfl⟩, fun _ hkept => hkept⟩

theorem trans {first second third : Scene σ η} (h : Conduct first second)
    (h' : Conduct second third) : Conduct first third where
  path_eq := h'.path_eq.trans h.path_eq
  conserved := h.conserved.trans h'.conserved
  node_of_kept hkept hunedited := by
    obtain ⟨hkept, hunedited, hnode'⟩ := h'.node_of_kept hkept hunedited
    obtain ⟨hkept, hunedited, hnode⟩ := h.node_of_kept hkept hunedited
    exact ⟨hkept, hunedited, hnode'.trans hnode⟩
  id_of_kept hkept hsame := by
    obtain ⟨hkept, hsame, hid'⟩ := h'.id_of_kept hkept hsame
    obtain ⟨hkept, hsame, hid⟩ := h.id_of_kept hkept hsame
    exact ⟨hkept, hsame, hid'.trans hid⟩
  kept_of_root hroot hkept := h'.kept_of_root (h.path_eq.trans hroot) (h.kept_of_root hroot hkept)

/-- The node is written to, together with the trees at hand, and nothing is decided. -/
theorem of_edit {c : Cursor η} {s : σ} {forest : Forest} {node : Tagged} {trees : List Tagged}
    {next : Nat} {exchanged : Bool}
    (hid : exchanged = false → c.exchanged = false ∧ node.id = c.node.id)
    (h : Conserved forest.next next (c.node.ids ++ forest.ids) (node.ids ++ idsOfTrees trees)) :
    Conduct (c, s, forest) ({ c with node, edited := true, exchanged }, s, ⟨trees, next⟩) where
  path_eq := rfl
  conserved := by
    refine ⟨h.next_le, fun i => ?_⟩
    have hcount := h.count_le i
    simp only [Cursor.ids, Forest.ids, List.count_append] at hcount ⊢
    omega
  node_of_kept _ hunedited := by cases hunedited
  id_of_kept hkept hsame := ⟨hkept, hid hsame⟩
  kept_of_root _ hkept := hkept

/-- Only the trees at hand change. -/
theorem of_forest {c : Cursor η} {s : σ} {forest forest' : Forest}
    (h : Conserved forest.next forest'.next forest.ids forest'.ids) :
    Conduct (c, s, forest) (c, s, forest') where
  path_eq := rfl
  conserved := by
    refine ⟨h.next_le, fun i => ?_⟩
    have hcount := h.count_le i
    simp only [List.count_append]
    omega
  node_of_kept hkept hunedited := ⟨hkept, hunedited, rfl⟩
  id_of_kept hkept hsame := ⟨hkept, hsame, rfl⟩
  kept_of_root _ hkept := hkept

/-- Something else than to keep the node is decided, away from the root. -/
theorem of_decision {c : Cursor η} {s : σ} {forest : Forest} {node : Tagged} {outcome : Outcome}
    {trees : List Tagged} (hroot : c.path ≠ []) (hkept : outcome ≠ .kept)
    (h : ∀ i, (node.ids ++ idsOfTrees outcome.trees ++ idsOfTrees trees).count i
      ≤ (c.node.ids ++ forest.ids).count i) :
    Conduct (c, s, forest) ({ c with node, outcome }, s, { forest with trees }) where
  path_eq := rfl
  conserved := .of_count_le fun i => by
    have hcount := h i
    simp only [Cursor.ids, Forest.ids, List.count_append] at hcount ⊢
    omega
  node_of_kept hkept' := absurd hkept' hkept
  id_of_kept hkept' := absurd hkept' hkept
  kept_of_root hroot' := absurd hroot' hroot

end Conduct

theorem Cursor.path_ne_nil {c : Cursor η} (h : ¬ c.isRoot = true) : c.path ≠ [] := by
  intro hpath
  exact h (by rw [isRoot, hpath]; rfl)

/-- The root stands in no list. -/
theorem Cursor.path_ne_nil_of_index {c : Cursor η} (h : ¬ c.index?.isNone = true) : c.path ≠ [] := by
  intro hpath
  exact h (by rw [index?, hpath]; rfl)

theorem count_take_drop (trees : List Tagged) (k i : Nat) :
    (idsOfTrees (trees.take k)).count i + (idsOfTrees (trees.drop k)).count i
      = (idsOfTrees trees).count i := by
  rw [← List.count_append, ← idsOfTrees_append, List.take_append_drop]

theorem conduct_run (v : Verb σ η) (scene : Scene σ η) : Conduct scene (v.run scene).2 := by
  obtain ⟨c, s, forest⟩ := scene
  cases v with
  | remember state =>
      exact ⟨rfl, .refl .., fun hkept hunedited => ⟨hkept, hunedited, rfl⟩,
        fun hkept hsame => ⟨hkept, hsame, rfl⟩, fun _ hkept => hkept⟩
  | onLeave hook =>
      exact ⟨rfl, .refl .., fun hkept hunedited => ⟨hkept, hunedited, rfl⟩,
        fun hkept hsame => ⟨hkept, hsame, rfl⟩, fun _ hkept => hkept⟩
  | make source =>
      simp only [Verb.run]
      cases hmade : forest.make source with
      | error error => exact .refl _
      | ok made => exact .of_forest (Forest.conserved_make hmade)
  | drop =>
      refine .of_forest (.of_count_le fun i => ?_)
      have hsplit := count_take_drop forest.trees 1 i
      rw [List.drop_one] at hsplit
      simp only [Forest.ids]
      omega
  | rearrange r =>
      have hcount := r.count_le (c.node :: forest.trees)
      simp only [Verb.run]
      cases hmove : r.move (c.node :: forest.trees) with
      | nil => exact .refl _
      | cons node trees =>
          rw [hmove] at hcount
          refine .of_edit (fun hsame => ?_) (.of_count_le hcount)
          simpa using hsame
  | replace =>
      simp only [Verb.run]
      cases htrees : forest.trees with
      | nil => exact .refl _
      | cons node trees =>
          have hids : forest.ids = node.ids ++ idsOfTrees trees := by
            rw [Forest.ids, htrees, idsOfTrees_cons]
          dsimp only
          split
          · refine .of_forest (.of_count_le fun i => ?_)
            rw [hids, List.count_append]
            exact Nat.le_add_left ..
          · rename_i hroot
            refine .of_decision (Cursor.path_ne_nil hroot) (by simp) fun i => ?_
            simp only [hids, Outcome.trees, idsOfTrees_nil, List.count_append, List.count_nil]
            omega
  | splice count =>
      have hsplit := count_take_drop forest.trees count
      simp only [Verb.run]
      split
      · refine .of_forest (.of_count_le fun i => ?_)
        have := hsplit i
        simp only [Forest.ids]
        omega
      · rename_i hindex
        refine .of_decision (Cursor.path_ne_nil_of_index hindex) (by simp) fun i => ?_
        have := hsplit i
        have := count_idsOfTrees_reverse (forest.trees.take count) i
        simp only [Outcome.trees, Forest.ids, List.count_append]
        omega
  | remove =>
      simp only [Verb.run]
      split
      · exact .refl _
      · rename_i hroot
        refine .of_decision (Cursor.path_ne_nil hroot) (by simp) fun i => ?_
        simp only [Outcome.trees, Forest.ids, idsOfTrees_nil, List.append_nil]
        exact Nat.le_refl _
  | patch deep json =>
      have hmade := Patch.made_apply deep c.node forest.next json
      exact .of_edit (fun hsame => ⟨hsame, Patch.id_apply ..⟩) (hmade.conserved.frame forest.ids)

/-- **Whatever a visitor does is conduct.** -/
theorem conduct_play (script : Script σ η) (scene : Scene σ η) : Conduct scene (script.play scene).2 := by
  induction script generalizing scene with
  | done => exact .refl _
  | fail error => exact .refl _
  | look next ih => exact ih scene scene
  | verb v next ih => exact (conduct_run v scene).trans (ih _ _)

/-! ## Without identities -/

/-- The result of a script without identities. The other visitor has a view of the state and of the trees at
hand for its own state. -/
def toResult (view : σ → List Tagged → τ) :
    Option Error × Scene σ η → EStateM.Result Error (Minifier.Cursor η × τ) Unit
  | (none, c, s, forest) => .ok () (c.forget, view s forest.trees)
  | (some error, c, s, forest) => .error error (c.forget, view s forest.trees)

/-- The script does, on trees with identities, what the action does on trees without. -/
def Script.Erases (view : σ → List Tagged → τ) (script : Script σ η) (action : Action τ η Unit) : Prop :=
  ∀ c s forest, action (c.forget, view s forest.trees) = toResult view (script.play (c, s, forest))

/-- Both scripts of the visitor do what the actions of the other visitor do. -/
structure Visitor.Erases (view : σ → List Tagged → τ) (v : Visitor σ η) (plain : Minifier.Visitor τ η) :
    Prop where
  enter : v.enter.Erases view plain.enter
  leave : ∀ hook, (v.leave hook).Erases view (plain.leave hook)

end Minifier.Tagged
