import Minifier.Proofs.Edit.Sweep
import Minifier.Proofs.Tree.Traversal

/-!
# Walks that are folds

A visitor that only edits the node it is at, and there nothing that a traversal follows, meets the
positions of the tree that it was given, in the order of `Node.positions`. So a walk with it takes one
step at each of them and comes to its end (`Visitor.run_eq_foldl`).
-/

namespace Minifier

open Node

variable {σ η : Type}

/-- At each position the visitor does to the node what `step` does to the tree. It goes on from there, and
the fields that a traversal follows are as they were. -/
def Visitor.StepsBy (v : Visitor σ η) (step : Node × σ → Path → Node × σ) : Prop :=
  ∀ around : Surroundings, around.Open → ∀ n s, ∃ n' s',
    Sweep.act around v.enter (n, s) = .ok (.kept, none) (n', s') ∧
      step (around.wrap n, s) around.path = (around.wrap n', s') ∧
      n'.kind = n.kind ∧ ∀ name ∈ n.kind.fields, n'.get? name = n.get? name

namespace Sweep

/-- The steps at the positions of some occurrences. -/
def steps (step : Node × σ → Path → Node × σ) (x : Node × σ) (occurrences : List Occurrence) :
    Node × σ :=
  occurrences.foldl (fun x o => step x o.path) x

theorem steps_append (step : Node × σ → Path → Node × σ) (x : Node × σ) (l l' : List Occurrence) :
    steps step x (l ++ l') = steps step (steps step x l) l' :=
  List.foldl_append

/-- A sweep of a node that is not too deep keeps it, and comes to the steps at what a traversal meets. -/
def Folds (step : Node × σ → Path → Node × σ) (levels : Nat) (sweep : Surroundings → Walk σ Settled) :
    Prop :=
  ∀ around : Surroundings, around.Open → ∀ n s, n.size ≤ levels → ∃ n' s',
    sweep around (n, s) = .ok .keep (n', s') ∧
      (around.wrap n', s') = steps step (around.wrap n, s) (Occurrence.below ⟨around.path, n⟩)

variable {step : Node × σ → Path → Node × σ} {levels : Nat} {below : Surroundings → Walk σ Settled}

theorem folds_child (hbelow : Folds step levels below) {around : Surroundings} (ho : around.Open)
    {n c : Node} {name : String} (h : n.get? name = some (.child c)) (hsize : c.size ≤ levels)
    (s : σ) :
    ∃ n' s', child below around name c (n, s) = .ok () (n', s') ∧
      (∀ other, other ≠ name → n'.get? other = n.get? other) ∧
      (around.wrap n', s')
        = steps step (around.wrap n, s)
            (Occurrence.below ⟨around.path ++ [⟨name, none⟩], c⟩) := by
  let frame : Frame := ⟨n.set name (.value .null), ⟨name, none⟩⟩
  have hopen : Surroundings.Open (frame :: around) := .cons (open_child h) ho
  have hwrap : ∀ m, Surroundings.wrap (frame :: around) m = around.wrap (n.set name (.child m)) := by
    intro m
    show around.wrap ((n.set name (.value .null)).set name (.child m)) = _
    rw [set_set]
  obtain ⟨c', s', hsweep, hsteps⟩ := hbelow (frame :: around) hopen c s hsize
  rw [hwrap, hwrap, set_eq_self h, Surroundings.path_cons] at hsteps
  refine ⟨n.set name (.child c'), s', ?_, fun other hne => get?_set_of_ne hne, hsteps⟩
  simp only [child]
  rw [hsweep]

theorem folds_slots (hbelow : Folds step levels below) {around : Surroundings} (ho : around.Open)
    (n : Node) (name : String) (done rest : List (Option Node))
    (hsize : ∀ c, some c ∈ rest → c.size ≤ levels) (s : σ) :
    ∃ rest' pieces s', slots below around n name done rest s = .ok pieces (done ++ rest', s') ∧
      pieces.flatten = rest' ∧
      (around.wrap (n.set name (.list (done ++ rest'))), s')
        = steps step (around.wrap (n.set name (.list (done ++ rest))), s)
            (((rest.zipIdx done.length).filterMap fun (slot, i) =>
                slot.map fun c => Occurrence.mk (around.path ++ [⟨name, some i⟩]) c).flatMap
              Occurrence.below) := by
  induction rest generalizing done s with
  | nil => exact ⟨[], [], s, by simp [slots], rfl, rfl⟩
  | cons slot rest ih =>
      have hrest : ∀ c, some c ∈ rest → c.size ≤ levels :=
        fun c hc => hsize c (List.mem_cons_of_mem _ hc)
      cases slot with
      | none =>
          obtain ⟨rest', pieces, s', hslots, hflat, hsteps⟩ := ih (done ++ [none]) hrest s
          simp only [List.append_assoc, List.singleton_append, List.length_append,
            List.length_singleton] at hslots hsteps
          refine ⟨none :: rest', [none] :: pieces, s', ?_, by simp [hflat], ?_⟩
          · simp only [slots, hslots, withPiece]
          · simpa using hsteps
      | some c =>
          let frame : Frame :=
            ⟨n.set name (.list (done ++ none :: rest)), ⟨name, some done.length⟩⟩
          have hopen : Surroundings.Open (frame :: around) := .cons (open_slot n c name done rest) ho
          have hwrap : ∀ m, Surroundings.wrap (frame :: around) m
              = around.wrap (n.set name (.list (done ++ some m :: rest))) := by
            intro m
            exact congrArg around.wrap (fill_slot n m name done rest)
          obtain ⟨c', t, hsweep, hstep⟩ :=
            hbelow (frame :: around) hopen c s (hsize c List.mem_cons_self)
          rw [hwrap, hwrap, Surroundings.path_cons] at hstep
          obtain ⟨rest', pieces, s', hslots, hflat, hsteps⟩ := ih (done ++ [some c']) hrest t
          simp only [List.append_assoc, List.singleton_append, List.length_append,
            List.length_singleton] at hslots hsteps
          refine ⟨some c' :: rest', [some c'] :: pieces, s', ?_, by simp [hflat], ?_⟩
          · simp only [slots]
            rw [hsweep]
            simp only [hslots, withPiece, piece]
          · rw [hsteps, hstep, ← steps_append]
            simp only [List.zipIdx_cons, List.filterMap_cons, Option.map_some, List.flatMap_cons]
            rfl

theorem folds_field (hbelow : Folds step levels below) {around : Surroundings} (ho : around.Open)
    (n : Node) (name : String) (hsize : ∀ edge ∈ n.edges name, edge.2.size ≤ levels) (s : σ) :
    ∃ n' s', field below around name (n, s) = .ok () (n', s') ∧
      (∀ other, other ≠ name → n'.get? other = n.get? other) ∧
      (around.wrap n', s')
        = steps step (around.wrap n, s)
            (((n.edges name).map (Occurrence.along ⟨around.path, n⟩)).flatMap Occurrence.below) := by
  cases hget : n.get? name with
  | none =>
      refine ⟨n, s, by simp only [field, hget], fun _ _ => rfl, ?_⟩
      simp [edges, hget, steps]
  | some content =>
      cases content with
      | value json =>
          refine ⟨n, s, by simp only [field, hget], fun _ _ => rfl, ?_⟩
          simp [edges, hget, steps]
      | child c =>
          have hc : c.size ≤ levels := by simpa [edges, hget] using hsize
          obtain ⟨n', s', hchild, hframe, hsteps⟩ := folds_child hbelow ho hget hc s
          refine ⟨n', s', by simp only [field, hget, hchild], hframe, ?_⟩
          simpa [edges, hget, Occurrence.along] using hsteps
      | list slots =>
          have hc : ∀ c, some c ∈ slots → c.size ≤ levels := by
            intro c hmem
            obtain ⟨i, hi⟩ := List.getElem?_of_mem hmem
            exact hsize (⟨name, some i⟩, c)
              (mem_edges_iff.mpr ⟨rfl, step?_slot_eq_some_iff.mpr ⟨slots, hget, hi⟩⟩)
          obtain ⟨rest', pieces, s', hslots, hflat, hsteps⟩ :=
            folds_slots hbelow ho n name [] slots hc s
          simp only [List.nil_append, List.length_nil, set_eq_self hget] at hslots hsteps
          refine ⟨n.set name (.list rest'), s', ?_, fun other hne => get?_set_of_ne hne, ?_⟩
          · simp only [field, hget, list, hslots, hflat]
          · rw [hsteps]
            congr 2
            simp only [edges, hget, List.map_filterMap, Option.map_map]
            rfl

theorem edges_congr {n m : Node} {name : String} (h : n.get? name = m.get? name) :
    n.edges name = m.edges name := by
  unfold edges
  rw [h]

/-- Each field of `n` that is still to come is as in `m`, the node before any of them was swept. -/
theorem folds_fields (hbelow : Folds step levels below) {around : Surroundings} (ho : around.Open)
    {m : Node} (hsize : m.size ≤ levels + 1) {names : List String} (hnodup : names.Nodup) (n : Node)
    (hsame : ∀ name ∈ names, n.get? name = m.get? name) (s : σ) :
    ∃ n' s', names.forM (field below around) (n, s) = .ok () (n', s') ∧
      (around.wrap n', s')
        = steps step (around.wrap n, s)
            (((names.flatMap m.edges).map (Occurrence.along ⟨around.path, m⟩)).flatMap
              Occurrence.below) := by
  induction names generalizing n s with
  | nil => exact ⟨n, s, rfl, rfl⟩
  | cons name names ih =>
      obtain ⟨hnew, hnodup⟩ := List.nodup_cons.mp hnodup
      have hedges := edges_congr (hsame name List.mem_cons_self)
      have hlevels : ∀ edge ∈ n.edges name, edge.2.size ≤ levels := by
        intro edge hedge
        rw [hedges] at hedge
        have hlt := size_edges_lt hedge
        omega
      obtain ⟨n₁, s₁, hfield, hframe, hsteps⟩ := folds_field hbelow ho n name hlevels s
      have hsame₁ : ∀ other ∈ names, n₁.get? other = m.get? other := by
        intro other hother
        rw [hframe other fun heq => hnew (heq ▸ hother)]
        exact hsame other (List.mem_cons_of_mem _ hother)
      obtain ⟨n', s', hfields, hrest⟩ := ih hnodup n₁ hsame₁ s₁
      refine ⟨n', s', ?_, ?_⟩
      · show EStateM.bind (field below around name) _ (n, s) = _
        simp only [EStateM.bind, hfield]
        exact hfields
      · rw [hrest, hsteps, ← steps_append, hedges, List.flatMap_cons, List.map_append,
          List.flatMap_append]
        rfl

/-- A node keeps the levels below it in order; each of its fields is swept as a traversal meets it. -/
theorem folds_node {v : Visitor σ η} (hv : v.StepsBy step) (levels : Nat) :
    Folds step levels (node v levels) := by
  induction levels with
  | zero =>
      intro around _ n s hsize
      have hpos := n.size_pos
      omega
  | succ levels ih =>
      intro around ho n s hsize
      obtain ⟨n₁, s₁, hact, hstep, hkind, hget⟩ := hv around ho n s
      obtain ⟨n', s', hfields, hsteps⟩ :=
        folds_fields ih ho hsize (nodup_fields n.kind) n₁ hget s₁
      refine ⟨n', s', ?_, ?_⟩
      · show EStateM.bind (act around v.enter) _ (n, s) = _
        simp only [EStateM.bind, hact]
        show EStateM.bind (fields (node v levels) around) _ (n₁, s₁) = _
        simp only [EStateM.bind, fields, hkind, hfields]
        rfl
      · rw [hsteps, ← hstep, Occurrence.below_eq]
        rfl

end Sweep

/-- **The walk is a fold over the positions of the tree.** -/
theorem Visitor.run_eq_foldl {v : Visitor σ η} {step : Node × σ → Path → Node × σ}
    (hv : v.StepsBy step) {levels : Nat} (tree : Node) (hlevels : tree.size ≤ levels) (state : σ) :
    v.run levels tree state
      = ⟨(tree.positions.foldl step (tree, state)).1, (tree.positions.foldl step (tree, state)).2,
          none⟩ := by
  obtain ⟨tree', state', hnode, hsteps⟩ :=
    Sweep.folds_node hv levels [] (fun _ h => nomatch h) tree state hlevels
  have hfold : tree.positions.foldl step (tree, state) = (tree', state') := by
    rw [positions, List.foldl_map]
    exact hsteps.symm
  rw [Sweep.run_eq, Visitor.sweep, hnode, hfold]

end Minifier
