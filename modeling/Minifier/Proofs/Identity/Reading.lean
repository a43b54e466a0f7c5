import Minifier.Proofs.Edit.Observation
import Minifier.Proofs.Identity.Walk

/-!
# Reading a tree

A visitor that edits nothing leaves every node in its place and as it is. A walk takes each node out of the tree
and puts it back, and so leaves the tree as it was, identities included (`tree_run`). Without identities it is
one of three ways to go through a tree, and all three list the same nodes (`readOnly_walk`).
-/

namespace Minifier

namespace Tagged

variable {σ η α β : Type}

/-- To put at a position what is there changes nothing. -/
theorem modifyAt_eq_self {t n : Tagged} {p : Path} (h : t.at? p = some n) :
    t.modifyAt (fun _ => n) p = t := by
  induction p generalizing t with
  | nil => exact (Option.some.inj h).symm
  | cons step rest ih =>
      rw [at?_cons] at h
      obtain ⟨c, hstep, hc⟩ := Option.bind_eq_some_iff.mp h
      rw [modifyAt_cons hstep, ih hc, fill_eq_self hstep]

/-- The script leaves the node as it is, also if it fails, and decides nothing. -/
def Script.ReadOnly (script : Script σ η) : Prop :=
  ∀ (c : Cursor η) (s : σ) (forest : Forest), c.outcome = .kept →
    match script.play (c, s, forest) with
    | (none, c', _) => c'.node = c.node ∧ c'.outcome = .kept
    | (some _, c', _) => c'.node = c.node

/-- The visitor and its hooks edit nothing. -/
structure Visitor.ReadOnly (v : Visitor σ η) : Prop where
  enter : v.enter.ReadOnly
  leave : ∀ hook, (v.leave hook).ReadOnly

namespace Walk

/-- The walk leaves the tree as it is, also if it stops, and gives only what it may. -/
def Reads (may : α → Prop) (w : Walk σ α) : Prop :=
  ∀ site, match w site with
    | .ok a after => after.tree = site.tree ∧ may a
    | .error _ after => after.tree = site.tree

theorem Reads.pure {may : α → Prop} {a : α} (h : may a) : Reads may (pure a : Walk σ α) :=
  fun _ => ⟨rfl, h⟩

theorem Reads.bind {may : α → Prop} {may' : β → Prop} {w : Walk σ α} {next : α → Walk σ β}
    (h : Reads may w) (hnext : ∀ a, may a → Reads may' (next a)) : Reads may' (w >>= next) := by
  intro site
  have hfirst := h site
  show match EStateM.bind w next site with
    | .ok a after => after.tree = site.tree ∧ may' a
    | .error _ after => after.tree = site.tree
  simp only [EStateM.bind]
  cases hw : w site with
  | error stop after =>
      rw [hw] at hfirst
      exact hfirst
  | ok a middle =>
      rw [hw] at hfirst
      have hrest := hnext a hfirst.2 middle
      rw [hfirst.1] at hrest
      exact hrest

theorem reads_nodeAt (path : Path) : Reads (fun _ => True) (nodeAt path : Walk σ Tagged) := by
  intro site
  unfold nodeAt
  cases site.tree.at? path with
  | none => rfl
  | some n => exact ⟨rfl, trivial⟩

/-- The node that was taken out is put back. -/
theorem reads_act {script : Script σ η} (h : script.ReadOnly) (path : Path) :
    Reads (fun (outcome, _) => outcome = .kept) (act path script) := by
  intro site
  unfold act
  cases hdetach : site.tree.detach site.forest.next path with
  | none => rfl
  | some taken =>
      obtain ⟨node, left⟩ := taken
      obtain ⟨hat, hattach⟩ := attach_detach hdetach
      have hback : left.attach node path = site.tree := by rw [hattach, modifyAt_eq_self hat]
      have hread := h { root := left, path, node } site.state (standIn site.forest path) rfl
      dsimp only
      generalize script.play ({ root := left, path, node }, site.state, standIn site.forest path) = played
        at hread ⊢
      obtain ⟨error, c, s, forest⟩ := played
      cases error with
      | none =>
          obtain ⟨hnode, hkept⟩ := hread
          refine ⟨?_, hkept⟩
          simp only [putBack, hnode, hback]
      | some error =>
          have hnode : c.node = node := hread
          simp only [putBack, hnode, hback]

section

variable {below : Path → Walk σ Settled} (h : ∀ path, Reads (· = .keep) (below path))
include h

theorem reads_single (path : Path) (name : String) : Reads (fun _ => True) (single below path name) := by
  apply (h _).bind
  rintro _ rfl
  exact .pure trivial

theorem reads_slots (path : Path) (name : String) (i : Nat) (occupied : List Bool) :
    Reads (fun fates => fates.all Settled.isKeep = true) (slots below path name i occupied) := by
  induction occupied generalizing i with
  | nil => exact .pure rfl
  | cons present occupied ih =>
      -- What comes behind the slot is the same whether or not it holds a node.
      have hrest : ∀ fate : Settled, fate = .keep →
          Reads (fun fates => fates.all Settled.isKeep = true)
            (slots below path name (i + 1) occupied >>= fun fates => pure (fate :: fates)) := by
        rintro _ rfl
        exact (ih (i + 1)).bind fun fates hfates => .pure hfates
      cases present with
      | false => exact hrest .keep rfl
      | true => exact (h _).bind hrest

theorem reads_list (path : Path) (name : String) (occupied : List Bool) :
    Reads (fun _ => True) (list below path name occupied) := by
  apply (reads_slots h path name 0 occupied).bind
  intro fates hfates
  rw [rebuild, if_pos hfates]
  exact .pure trivial

theorem reads_field (path : Path) (name : String) : Reads (fun _ => True) (field below path name) := by
  apply (reads_nodeAt path).bind
  intro n _
  cases n.get? name with
  | none => exact .pure trivial
  | some content =>
      cases content with
      | value json => exact .pure trivial
      | child c => exact reads_single h path name
      | list slots => exact reads_list h path name _

theorem reads_children (path : Path) : Reads (fun _ => True) (children below path) := by
  apply (reads_nodeAt path).bind
  intro n _
  induction n.kind.fields with
  | nil => exact .pure trivial
  | cons name names ih => exact (reads_field h path name).bind fun _ _ => ih

end

end Walk

namespace Visitor

variable {v : Visitor σ η}

theorem reads_finish (hv : v.ReadOnly) (path : Path) (hook : Option η) :
    Walk.Reads (· = .keep) (v.finish path hook) := by
  cases hook with
  | none => exact .pure rfl
  | some hook =>
      apply (Walk.reads_act (hv.leave hook) path).bind
      rintro ⟨_, _⟩ rfl
      exact .pure rfl

theorem reads_walk (hv : v.ReadOnly) (levels : Nat) (path : Path) :
    Walk.Reads (· = .keep) (v.walk levels path) := by
  induction levels generalizing path with
  | zero => exact fun _ => rfl
  | succ levels ih =>
      apply (Walk.reads_act hv.enter path).bind
      rintro ⟨_, hook⟩ rfl
      exact (Walk.reads_children ih path).bind fun _ _ => reads_finish hv path hook

/-- **A walk that edits nothing leaves the tree as it was, identities included.** -/
theorem tree_run (hv : v.ReadOnly) (levels : Nat) (tree : Tagged) (state : σ) (forest : Forest) :
    (v.run levels tree state forest).site.tree = tree := by
  have hwalk := reads_walk hv levels [] ⟨tree, state, forest, []⟩
  unfold run
  cases hresult : v.walk levels [] ⟨tree, state, forest, []⟩ with
  | ok fate site =>
      rw [hresult] at hwalk
      exact hwalk.1
  | error stop site =>
      rw [hresult] at hwalk
      exact hwalk

end Visitor

end Tagged

open Node

variable {σ ρ η : Type}

/-- **A walk that edits nothing and the two ways of watching agree.** The walk leaves the tree as it is, and
calls the visitor and its hooks for the events of the tree. So the visitor enters the nodes that are watched,
in the same order, and sees above each of them the chain that is watched, as long as the node is deep.
Between entering and leaving a node lies what happens below it, and nothing else. Every step of the
way to a node leads through a field that the kind above it lists. If the nodes have identities, then a visitor
that edits nothing leaves these as they are too, and with its calls comes to what it comes to without. -/
theorem readOnly_walk (v : Visitor σ η) (hv : v.ReadOnly) (t : Node) (s : σ) {levels : Nat}
    (hlevels : t.size ≤ levels) :
    v.run levels t s = v.observe t s ∧
    t.entered.map (·.node) = t.watched ∧
    t.entered.map (fun o => (o.node, (t.cursorAt η o).ancestors.map Ancestor.sign))
      = (t.chained []).map (fun (n, above) => (n, above.map fun (m, step) => (m.kind, step))) ∧
    (∀ o ∈ t.entered, (t.cursorAt η o).ancestors.length = (t.cursorAt η o).depth) ∧
    (∀ o ∈ t.entered, ∃ before inside after,
      t.events = before ++ (.enter o :: inside ++ [.leave o]) ++ after ∧
        (∀ e ∈ inside, o.path <+: e.path ∧ e.path ≠ o.path) ∧
        ∀ e ∈ before ++ after, ¬ o.path <+: e.path) ∧
    (∀ o ∈ t.entered, ∀ a ∈ t.ancestors o.path, a.field ∈ a.kind.fields) ∧
    ∀ w : Tagged.Visitor ρ η, w.ReadOnly → ∀ tree : Tagged, tree.forget = t → ∀ state forest,
      (w.run levels tree state forest).site.tree = tree ∧
        ∀ view, w.Erases view v → view state forest.trees = s →
          v.observe t s = ⟨t,
            view (w.run levels tree state forest).site.state
              (w.run levels tree state forest).site.forest.trees,
            (w.run levels tree state forest).stop⟩ := by
  rw [entered_eq]
  have hholds : ∀ o ∈ t.occurrences, t.Holds o := fun o ho => holds_of_mem_occurrences ho
  have hobserve : v.run levels t s = v.observe t s := Visitor.run_eq_observe hv t s hlevels
  refine ⟨hobserve, (watched_eq t).symm, ?_, ?_, ?_, ?_, ?_⟩
  · rw [chained_eq, List.map_map]
    apply List.map_congr_left
    intro o ho
    rw [map_sign_cursorAt (hholds o ho)]
    simp [Ancestor.sign, Ancestor.link, Ancestor.kind]
  · intro o ho
    have hlength := congrArg List.length (map_sign_cursorAt (η := η) (hholds o ho))
    rw [List.length_map, List.length_map, length_ancestors (hholds o ho)] at hlength
    exact hlength
  · intro o ho
    obtain ⟨before, after, hevents, hother⟩ := Occurrence.exists_events_eq ho
    refine ⟨before, o.visited.flatMap Occurrence.events, after, ?_, ?_, hother⟩
    · rw [← Occurrence.events_eq]
      exact hevents
    · intro e he
      exact Occurrence.below_of_mem_flatMap_events he
  · intro o ho a ha
    exact field_mem_of_mem_ancestors (mem_occurrences_iff.mp ho) ha
  · rintro w hw tree rfl state forest
    have htree := Tagged.Visitor.tree_run hw levels tree state forest
    refine ⟨htree, ?_⟩
    rintro view herases rfl
    rw [← hobserve, Tagged.Visitor.forget_run herases, htree]

/-- A visitor that writes down what it enters and what it leaves, with the kinds and steps above. -/
def logging : Visitor (List (Bool × Kind × List (Kind × Step))) Unit where
  enter := do
    let c ← Action.cursor
    Action.updateState (· ++ [(true, c.node.kind, c.ancestors.map Ancestor.sign)])
    Action.onLeave ()
  leave _ := do
    let c ← Action.cursor
    Action.updateState (· ++ [(false, c.node.kind, c.ancestors.map Ancestor.sign)])

/-- The same for nodes with identities. -/
def Tagged.logging : Tagged.Visitor (List (Bool × Kind × List (Kind × Step))) Unit where
  enter := .look fun (c, log, _) =>
    .after (.remember (log ++ [(true, c.forget.node.kind, c.forget.ancestors.map Ancestor.sign)])) <|
      .after (.onLeave ()) .done
  leave _ := .look fun (c, log, _) =>
    .after (.remember (log ++ [(false, c.forget.node.kind, c.forget.ancestors.map Ancestor.sign)])) .done

/-- `a + b;` after an empty slot and before a node of unknown kind, with a field that no traversal follows. -/
def mixedTree : Node :=
  ⟨.program,
    [("label", .value (.string "first")),
     ("body", .list
      [none,
       some ⟨.expressionStatement, [("expression", .child ⟨.binaryExpression,
        [("right", .child ⟨.identifier, [("name", .value (.string "b"))]⟩),
         ("left", .child ⟨.identifier, [("name", .value (.string "a"))]⟩)]⟩)]⟩,
       some ⟨.other "Widget", [("child", .child ⟨.identifier, []⟩)]⟩]),
     ("comments", .list [some ⟨.identifier, []⟩])]⟩

/-- What lies below the node of unknown kind and in the comments is not entered. The nodes keep the identities
that they have been numbered with. -/
theorem readOnly_walk_logging :
    logging.ReadOnly ∧ mixedTree.size ≤ 20 ∧ Tagged.logging.ReadOnly ∧
      (Tagged.logging.run 20 (mixedTree.number .first 0) [] ⟨[], mixedTree.size⟩).site.tree
        = mixedTree.number .first 0 ∧
      (Tagged.logging.run 20 (mixedTree.number .first 0) [] ⟨[], mixedTree.size⟩).site.state
        = (logging.run 20 mixedTree []).state ∧
      (logging.run 20 mixedTree []).state.map (fun (entering, kind, above) => (entering, kind, above.length))
        = [(true, .program, 0), (true, .expressionStatement, 1), (true, .binaryExpression, 2),
           (true, .identifier, 3), (false, .identifier, 3), (true, .identifier, 3),
           (false, .identifier, 3), (false, .binaryExpression, 2), (false, .expressionStatement, 1),
           (true, .other "Widget", 1), (false, .other "Widget", 1), (false, .program, 0)] := by
  have hreadOnly : logging.ReadOnly := ⟨fun _ _ h => ⟨rfl, h⟩, fun _ _ _ h => ⟨rfl, h⟩⟩
  have htagged : Tagged.logging.ReadOnly := ⟨fun _ _ _ h => ⟨rfl, h⟩, fun _ _ _ _ h => ⟨rfl, h⟩⟩
  have herases : Tagged.logging.Erases (fun log _ => log) logging :=
    ⟨fun _ _ _ => rfl, fun _ _ _ _ => rfl⟩
  obtain ⟨hrun, _, _, _, _, _, hids⟩ := readOnly_walk logging hreadOnly mixedTree []
    (show mixedTree.size ≤ 20 by decide)
  obtain ⟨htree, hcalls⟩ := hids Tagged.logging htagged (mixedTree.number .first 0)
    (Node.forget_number ..) [] ⟨[], mixedTree.size⟩
  refine ⟨hreadOnly, by decide, htagged, htree, ?_, ?_⟩
  · rw [hrun, hcalls _ herases rfl]
  · rw [hrun]
    decide +kernel

end Minifier
