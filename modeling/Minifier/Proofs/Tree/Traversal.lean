import Mathlib.Data.List.Nodup
import Minifier.Proofs.Tree.Position
import Minifier.Tree.Occurrence

/-!
# What a traversal meets

`Node.occurrences` lists what a traversal meets, in order. Here membership in that list is read off the
path alone: `Node.met?` follows a path as long as it goes through fields that a traversal follows
(`mem_occurrences_iff`).

A traversal meets a node before everything below it, and no position twice
(`pairwise_positions`, `nodup_positions`).
-/

namespace Minifier

namespace Node

/-- The node at a position, if a traversal comes there. -/
def met? (n : Node) : Path → Option Node
  | [] => some n
  | step :: rest => if step.field ∈ n.kind.fields then (n.step? step).bind (·.met? rest) else none

/-- The positions that a traversal meets, in order. -/
def positions (t : Node) : List Path := t.occurrences.map (·.path)

/-- The occurrence stands in the tree. -/
def Holds (t : Node) (o : Occurrence) : Prop := t.at? o.path = some o.node

/-! ## Paths that a traversal follows -/

@[simp] theorem met?_nil (n : Node) : n.met? [] = some n := rfl

theorem met?_cons (n : Node) (step : Step) (rest : Path) :
    n.met? (step :: rest)
      = if step.field ∈ n.kind.fields then (n.step? step).bind (·.met? rest) else none := rfl

theorem met?_append (n : Node) (p q : Path) : n.met? (p ++ q) = (n.met? p).bind (·.met? q) := by
  induction p generalizing n with
  | nil => rfl
  | cons step p ih =>
      rw [List.cons_append, met?_cons, met?_cons]
      split
      · rw [Option.bind_assoc]
        congr 1
        funext child
        exact ih child
      · rfl

/-- What is met at a position stands there. -/
theorem at?_of_met? {n m : Node} {p : Path} (h : n.met? p = some m) : n.at? p = some m := by
  induction p generalizing n with
  | nil => exact h
  | cons step p ih =>
      rw [met?_cons] at h
      split at h
      · obtain ⟨child, hstep, hchild⟩ := Option.bind_eq_some_iff.mp h
        rw [at?_cons, hstep]
        exact ih hchild
      · cases h

theorem eq_of_met? {t n m : Node} {p : Path} (h : t.met? p = some n) (hat : t.at? p = some m) :
    m = n :=
  Option.some.inj (hat.symm.trans (at?_of_met? h))

/-- The fields on the way to what is met are followed. -/
theorem field_mem_of_mem_ancestors {t n : Node} {q : Path} (hq : t.met? q = some n) {a : Ancestor}
    (ha : a ∈ t.ancestors q) : a.field ∈ a.kind.fields := by
  obtain ⟨⟨rest, rfl⟩, hat⟩ := (mem_ancestors_iff (at?_of_met? hq)).mp ha
  rw [List.append_assoc, met?_append] at hq
  obtain ⟨m, hmet, hrest⟩ := Option.bind_eq_some_iff.mp hq
  obtain rfl := eq_of_met? hmet hat
  rw [List.singleton_append, met?_cons] at hrest
  split at hrest
  · assumption
  · cases hrest

/-! ## Edges -/

theorem mem_edges_iff {n c : Node} {field : String} {step : Step} :
    (step, c) ∈ n.edges field ↔ step.field = field ∧ n.step? step = some c := by
  obtain ⟨name, index⟩ := step
  unfold edges
  cases hget : n.get? field with
  | none =>
      cases index <;> simp +contextual [step?, child?, slots?, hget]
  | some content =>
      cases content with
      | child node =>
          cases index <;>
            simp +contextual [step?, child?, slots?, hget, Field.child?, Field.slots?,
              eq_comm (a := c)]
      | value json =>
          cases index <;>
            simp +contextual [step?, child?, slots?, hget, Field.child?, Field.slots?]
      | list slots =>
          simp only [List.mem_filterMap, Option.map_eq_some_iff, Prod.exists, Prod.mk.injEq,
            Step.mk.injEq]
          constructor
          · rintro ⟨slot, i, hmem, node, rfl, ⟨rfl, rfl⟩, rfl⟩
            refine ⟨rfl, step?_slot_eq_some_iff.mpr ⟨slots, hget, ?_⟩⟩
            exact List.mem_zipIdx_iff_getElem?.mp hmem
          · rintro ⟨rfl, hstep⟩
            cases index with
            | none => simp [step?, child?, hget, Field.child?] at hstep
            | some i =>
                obtain ⟨slots', hget', hslot⟩ := step?_slot_eq_some_iff.mp hstep
                rw [hget] at hget'
                cases hget'
                exact ⟨some c, i, List.mem_zipIdx_iff_getElem?.mpr hslot, c, rfl, ⟨rfl, rfl⟩, rfl⟩

theorem mem_visited_iff {n c : Node} {step : Step} :
    (step, c) ∈ n.visited ↔ step.field ∈ n.kind.fields ∧ n.step? step = some c := by
  simp [visited, mem_edges_iff]

theorem nodup_fields (kind : Kind) : kind.fields.Nodup := by
  cases kind with
  | other name => exact List.nodup_nil
  | _ => decide

/-- Different edges of a field take different steps. -/
theorem nodup_edges (n : Node) (field : String) : ((n.edges field).map Prod.fst).Nodup := by
  unfold edges
  split
  · simp
  · rename_i slots _
    have hsteps : List.Sublist
        ((slots.zipIdx.filterMap fun entry =>
          entry.1.map fun node => (Step.mk field (some entry.2), node)).map Prod.fst)
        ((slots.zipIdx.map Prod.snd).map fun i => Step.mk field (some i)) := by
      induction slots.zipIdx with
      | nil => simp
      | cons entry rest ih =>
          obtain ⟨slot, i⟩ := entry
          cases slot with
          | none => exact ih.trans (List.sublist_cons_self _ _)
          | some node => exact ih.cons_cons _
    refine List.Nodup.sublist hsteps (List.Nodup.map (fun i j h => by simpa using h) ?_)
    rw [List.zipIdx_map_snd]
    exact List.nodup_range'
  · simp

theorem nodup_visited (n : Node) : (n.visited.map Prod.fst).Nodup := by
  unfold visited
  rw [List.map_flatMap, List.nodup_flatMap]
  refine ⟨fun field _ => nodup_edges n field, ?_⟩
  refine List.Pairwise.imp (fun {f g} hne => ?_) (nodup_fields n.kind)
  intro step hf hg
  obtain ⟨⟨s, c⟩, hc, hs⟩ := List.mem_map.mp hf
  obtain ⟨⟨s', d⟩, hd, hs'⟩ := List.mem_map.mp hg
  have hf : s.field = f := (mem_edges_iff.mp hc).1
  have hg : s'.field = g := (mem_edges_iff.mp hd).1
  have hsame : s = s' := hs.trans hs'.symm
  exact hne (by rw [← hf, ← hg, hsame])

end Node

namespace Occurrence

open Node

/-! ## Standing in a tree -/

theorem child?_eq_some_iff {o c : Occurrence} {field : String} :
    o.child? field = some c ↔
      o.node.step? ⟨field, none⟩ = some c.node ∧ c.path = o.path ++ [⟨field, none⟩] := by
  obtain ⟨path, node⟩ := c
  simp only [child?, along, Option.map_eq_some_iff, Occurrence.mk.injEq]
  constructor
  · rintro ⟨m, hm, rfl, rfl⟩
    exact ⟨hm, rfl⟩
  · rintro ⟨hm, rfl⟩
    exact ⟨node, hm, rfl, rfl⟩

theorem mem_children_iff {o c : Occurrence} {field : String} :
    c ∈ o.children field ↔
      ∃ i, o.node.step? ⟨field, some i⟩ = some c.node ∧ c.path = o.path ++ [⟨field, some i⟩] := by
  obtain ⟨path, node⟩ := c
  simp only [children, along, List.mem_filterMap, Option.map_eq_some_iff, Prod.exists,
    Occurrence.mk.injEq]
  constructor
  · rintro ⟨slot, i, hmem, m, rfl, rfl, rfl⟩
    refine ⟨i, ?_, rfl⟩
    have hslot := List.mem_zipIdx_iff_getElem?.mp hmem
    cases hslots : o.node.slots? field with
    | none => simp [hslots] at hslot
    | some slots =>
        rw [hslots] at hslot
        exact step?_slot_eq_some_iff.mpr ⟨slots, slots?_eq_some_iff.mp hslots, hslot⟩
  · rintro ⟨i, hstep, rfl⟩
    obtain ⟨slots, hget, hslot⟩ := step?_slot_eq_some_iff.mp hstep
    refine ⟨some node, i, ?_, node, rfl, rfl, rfl⟩
    rw [slots?_eq_some_iff.mpr hget]
    exact List.mem_zipIdx_iff_getElem?.mpr hslot

/-- What is visited one step down, field by field. -/
theorem visited_eq (o : Occurrence) :
    o.visited = o.node.kind.fields.flatMap fun field =>
      (o.child? field).toList ++ o.children field := by
  unfold visited Node.visited
  rw [List.map_flatMap]
  congr 1
  funext field
  unfold edges child? children Node.child? slots?
  cases hget : o.node.get? field with
  | none => rfl
  | some content =>
      cases content with
      | child node => simp [Field.child?, Field.slots?]
      | value json => simp [Field.child?, Field.slots?]
      | list slots =>
          simp only [Field.child?, Field.slots?, Option.bind_some, Option.map_none,
            Option.toList_none, List.nil_append, Option.getD_some, List.map_filterMap]
          congr 1
          funext entry
          cases entry.1 <;> rfl

/-! ## The order of a traversal -/

theorem mem_below_iff {o x : Occurrence} :
    x ∈ o.below ↔ ∃ q, x.path = o.path ++ q ∧ o.node.met? q = some x.node := by
  induction hsize : o.node.size using Nat.strongRecOn generalizing o with
  | ind size ih =>
      rw [below_eq, List.mem_cons, List.mem_flatMap]
      constructor
      · rintro (rfl | ⟨c, hc, hx⟩)
        · exact ⟨[], by simp, rfl⟩
        · have hlt := size_visited_lt hc
          obtain ⟨⟨step, child⟩, hedge, rfl⟩ := List.mem_map.mp hc
          obtain ⟨q, hpath, hmet⟩ := (ih _ (hsize ▸ hlt) rfl).mp hx
          obtain ⟨hfield, hstep⟩ := mem_visited_iff.mp hedge
          refine ⟨step :: q, by rw [hpath]; simp [along], ?_⟩
          rw [met?_cons, if_pos hfield, hstep]
          exact hmet
      · rintro ⟨q, hpath, hmet⟩
        cases q with
        | nil =>
            left
            obtain ⟨path, node⟩ := x
            rw [List.append_nil] at hpath
            simp only at hpath
            subst hpath
            cases hmet
            rfl
        | cons step q =>
            right
            rw [met?_cons] at hmet
            split at hmet
            · rename_i hfield
              obtain ⟨child, hstep, hchild⟩ := Option.bind_eq_some_iff.mp hmet
              have hc : o.along (step, child) ∈ o.visited :=
                List.mem_map.mpr ⟨(step, child), mem_visited_iff.mpr ⟨hfield, hstep⟩, rfl⟩
              refine ⟨_, hc, (ih _ (hsize ▸ size_visited_lt hc) rfl).mpr ⟨q, ?_, hchild⟩⟩
              rw [hpath]
              simp [along]
            · cases hmet

theorem mem_below_of_child? {o c : Occurrence} {field : String} (hfield : field ∈ o.node.kind.fields)
    (h : o.child? field = some c) : c ∈ o.below := by
  obtain ⟨hstep, hpath⟩ := child?_eq_some_iff.mp h
  refine mem_below_iff.mpr ⟨_, hpath, ?_⟩
  simp [met?_cons, hfield, hstep]

theorem mem_below_of_mem_children {o c : Occurrence} {field : String}
    (hfield : field ∈ o.node.kind.fields) (h : c ∈ o.children field) : c ∈ o.below := by
  obtain ⟨i, hstep, hpath⟩ := mem_children_iff.mp h
  refine mem_below_iff.mpr ⟨_, hpath, ?_⟩
  simp [met?_cons, hfield, hstep]

theorem mem_below_self (o : Occurrence) : o ∈ o.below := by
  rw [below_eq]
  exact List.mem_cons_self

theorem mem_below_trans {o x y : Occurrence} (h : x ∈ o.below) (h' : y ∈ x.below) : y ∈ o.below := by
  obtain ⟨q, hq, hx⟩ := mem_below_iff.mp h
  obtain ⟨r, hr, hy⟩ := mem_below_iff.mp h'
  refine mem_below_iff.mpr ⟨q ++ r, by rw [hr, hq, List.append_assoc], ?_⟩
  rw [met?_append, hx]
  exact hy

theorem mem_below_of_mem_visited {o c : Occurrence} (h : c ∈ o.visited) : c ∈ o.below := by
  rw [below_eq]
  exact List.mem_cons_of_mem _ (List.mem_flatMap.mpr ⟨c, h, mem_below_self c⟩)

/-- A traversal meets a node before everything below it, and nothing twice: no position is at or above an
earlier one. -/
theorem pairwise_below (o : Occurrence) : o.below.Pairwise fun a b => ¬ b.path <+: a.path := by
  induction hsize : o.node.size using Nat.strongRecOn generalizing o with
  | ind size ih =>
      rw [below_eq, List.pairwise_cons]
      constructor
      · intro b hb hpre
        obtain ⟨c, hc, hbelow⟩ := List.mem_flatMap.mp hb
        obtain ⟨edge, _, rfl⟩ := List.mem_map.mp hc
        obtain ⟨q, hpath, _⟩ := mem_below_iff.mp hbelow
        have := hpre.length_le
        rw [hpath] at this
        simp only [along, List.length_append, List.length_singleton] at this
        omega
      · rw [List.pairwise_flatMap]
        refine ⟨fun c hc => ih _ (hsize ▸ size_visited_lt hc) c rfl, ?_⟩
        have hsteps := nodup_visited o.node
        rw [List.Nodup, List.pairwise_map] at hsteps
        refine List.pairwise_map.mpr (hsteps.imp fun {e f} hne a ha b hb hpre => hne ?_)
        -- Both lie below the node, the one past the step of `e` and the other past that of `f`.
        obtain ⟨q, hq, _⟩ := mem_below_iff.mp ha
        obtain ⟨r, hr, _⟩ := mem_below_iff.mp hb
        rw [hq, hr] at hpre
        simp only [along, List.append_assoc, List.singleton_append] at hpre
        exact (List.cons_prefix_cons.mp ((List.prefix_append_right_inj _).mp hpre)).1.symm

end Occurrence

namespace Node

theorem mem_occurrences_iff {t : Node} {o : Occurrence} :
    o ∈ t.occurrences ↔ t.met? o.path = some o.node := by
  rw [occurrences, Occurrence.mem_below_iff]
  simp

/-- What holds of all nodes that a traversal meets holds of the root and, one step down, of all below. -/
theorem forall_occurrences_iff {t : Node} {P : Node → Prop} :
    (∀ o ∈ t.occurrences, P o.node) ↔
      P t ∧ ∀ step c, step.field ∈ t.kind.fields → t.step? step = some c → ∀ o ∈ c.occurrences, P o.node := by
  constructor
  · intro h
    refine ⟨h ⟨[], t⟩ (mem_occurrences_iff.mpr rfl), ?_⟩
    intro step c hfield hstep o ho
    apply h ⟨step :: o.path, o.node⟩
    rw [mem_occurrences_iff] at ho ⊢
    rw [met?_cons, if_pos hfield, hstep]
    exact ho
  · rintro ⟨hself, hbelow⟩ ⟨path, m⟩ ho
    have hmet : t.met? path = some m := mem_occurrences_iff.mp ho
    cases path with
    | nil =>
        cases hmet
        exact hself
    | cons step rest =>
        rw [met?_cons] at hmet
        split at hmet
        · rename_i hfield
          obtain ⟨c, hstep, hrest⟩ := Option.bind_eq_some_iff.mp hmet
          exact hbelow step c hfield hstep ⟨rest, m⟩ (mem_occurrences_iff.mpr hrest)
        · cases hmet

theorem mem_positions_iff {t : Node} {p : Path} : p ∈ t.positions ↔ ∃ n, t.met? p = some n := by
  simp only [positions, List.mem_map, mem_occurrences_iff]
  constructor
  · rintro ⟨o, ho, rfl⟩
    exact ⟨o.node, ho⟩
  · rintro ⟨n, hn⟩
    exact ⟨⟨p, n⟩, hn, rfl⟩

theorem holds_of_mem_occurrences {t : Node} {o : Occurrence} (h : o ∈ t.occurrences) : t.Holds o :=
  at?_of_met? (mem_occurrences_iff.mp h)

theorem mem_occurrences_of_mem_below {t : Node} {o x : Occurrence} (ho : o ∈ t.occurrences)
    (h : x ∈ o.below) : x ∈ t.occurrences :=
  Occurrence.mem_below_trans ho h

/-- What stands above something that is met is met. -/
theorem mem_occurrences_of_isPrefixOf {t : Node} {o x : Occurrence} (ho : t.Holds o)
    (hx : x ∈ t.occurrences) (h : o.path <+: x.path) : o ∈ t.occurrences := by
  obtain ⟨rest, hrest⟩ := h
  have hmet := mem_occurrences_iff.mp hx
  rw [← hrest, met?_append] at hmet
  obtain ⟨m, hm, _⟩ := Option.bind_eq_some_iff.mp hmet
  obtain rfl := eq_of_met? hm ho
  exact mem_occurrences_iff.mpr hm

theorem pairwise_positions (t : Node) : t.positions.Pairwise fun p q => ¬ q <+: p :=
  List.pairwise_map.mpr (Occurrence.pairwise_below ⟨[], t⟩)

theorem nodup_positions (t : Node) : t.positions.Nodup := by
  refine t.pairwise_positions.imp ?_
  rintro p q h rfl
  exact h List.prefix_rfl

end Node

end Minifier
