import Mathlib.Data.List.Nodup
import Minifier.Expression
import Minifier.Proofs.Identity.Position
import Minifier.Tree.Document

/-!
# Where identities come from

A `Forest` is all the trees that there are at a time, and the number that will be the next identity. There are
two things that can be done to the trees as a whole:

* A tree is *made* from a `Source`: read from a document, built from a value, made new, or copied. Its nodes
  get the next identities.
* The trees are *rearranged*: nodes are moved, or dropped, or their kinds and values are written. What a
  `Rearrangement` cannot do is to have a node twice. The only way to that is to make a copy.

`Conserved` is the law for all that follows: between two points no identity comes up more often than it did,
except for those that were drawn from the numbers between, which come up once. It composes (`trans`), it holds
beside whatever else there is (`frame`), and under it identities that are distinct stay so (`distinct`).
-/

namespace Minifier.Tagged

/-! ## Conservation -/

/-- From one point to another, while identities from `next` to `next'` were drawn, no identity has come up
more often, but for the drawn ones. -/
structure Conserved (next next' : Nat) (before after : List Nat) : Prop where
  next_le : next ≤ next'
  count_le : ∀ i, after.count i ≤ before.count i + (List.range' next (next' - next)).count i

/-- The identities are distinct, and none of them is still to be drawn. -/
structure Distinct (next : Nat) (ids : List Nat) : Prop where
  nodup : ids.Nodup
  lt_next : ∀ i ∈ ids, i < next

variable {next next' next'' : Nat} {before between after : List Nat}

theorem count_range'_of_lt {i : Nat} (h : i < next) (k : Nat) : (List.range' next k).count i = 0 := by
  rw [List.count_eq_zero, List.mem_range'_1]
  omega

theorem count_range'_trans (h : next ≤ next') (h' : next' ≤ next'') (i : Nat) :
    (List.range' next (next'' - next)).count i
      = (List.range' next (next' - next)).count i + (List.range' next' (next'' - next')).count i := by
  have hsplit := List.range'_append_1 (s := next) (m := next' - next) (n := next'' - next')
  rw [show next + (next' - next) = next' by omega,
    show next' - next + (next'' - next') = next'' - next by omega] at hsplit
  rw [← hsplit, List.count_append]

namespace Conserved

/-- Where nothing is drawn. -/
theorem of_count_le (h : ∀ i, after.count i ≤ before.count i) : Conserved next next before after :=
  ⟨Nat.le_refl _, fun i => Nat.le_trans (h i) (Nat.le_add_right ..)⟩

theorem refl (next : Nat) (ids : List Nat) : Conserved next next ids ids :=
  of_count_le fun _ => Nat.le_refl _

theorem trans (h : Conserved next next' before between) (h' : Conserved next' next'' between after) :
    Conserved next next'' before after := by
  refine ⟨Nat.le_trans h.next_le h'.next_le, fun i => ?_⟩
  have hfirst := h.count_le i
  have hsecond := h'.count_le i
  have hdrawn := count_range'_trans h.next_le h'.next_le i
  omega

/-- More there was before, and less there is behind. -/
theorem mono {more fewer : List Nat} (h : Conserved next next' before after)
    (hmore : ∀ i, before.count i ≤ more.count i) (hfewer : ∀ i, fewer.count i ≤ after.count i) :
    Conserved next next' more fewer := by
  refine ⟨h.next_le, fun i => ?_⟩
  have hcount := h.count_le i
  have hbefore := hmore i
  have hafter := hfewer i
  omega

/-- Whatever else there is stays aside. -/
theorem frame (h : Conserved next next' before after) (aside : List Nat) :
    Conserved next next' (before ++ aside) (after ++ aside) := by
  refine ⟨h.next_le, fun i => ?_⟩
  have hcount := h.count_le i
  rw [List.count_append, List.count_append]
  omega

/-- Identities that are distinct stay distinct. -/
theorem distinct (h : Conserved next next' before after) (hdistinct : Distinct next before) :
    Distinct next' after := by
  have hdrawn : ∀ i, (List.range' next (next' - next)).count i ≤ 1 := fun i =>
    List.nodup_iff_count_le_one.mp List.nodup_range' i
  have hle := h.next_le
  refine ⟨List.nodup_iff_count_le_one.mpr fun i => ?_, fun i hi => ?_⟩
  · have hcount := h.count_le i
    have hbefore := List.nodup_iff_count_le_one.mp hdistinct.nodup i
    -- What was there is below `next`, and what was drawn is not.
    by_cases hlt : i < next
    · rw [count_range'_of_lt hlt] at hcount
      omega
    · have hold : before.count i = 0 := List.count_eq_zero.mpr fun hmem => hlt (hdistinct.lt_next i hmem)
      have := hdrawn i
      omega
  · have hcount := h.count_le i
    have hpos := List.count_pos_iff.mpr hi
    by_cases hmem : i ∈ before
    · have := hdistinct.lt_next i hmem
      omega
    · have hnew : 0 < (List.range' next (next' - next)).count i := by
        rw [List.count_eq_zero.mpr hmem] at hcount
        omega
      have := List.mem_range'_1.mp (List.count_pos_iff.mp hnew)
      omega

end Conserved

/-- New identities come up once, beside all that there was. -/
theorem conserved_draw {drawn : List Nat} {k : Nat} (h : drawn.Perm (List.range' next k))
    (ids : List Nat) : Conserved next (next + k) ids (drawn ++ ids) := by
  refine ⟨by omega, fun i => ?_⟩
  have hdrawn := h.count_eq i
  rw [List.count_append, Nat.add_sub_cancel_left]
  omega

/-! ## Trees -/

/-- The identities in some trees. -/
def idsOfTrees (trees : List Tagged) : List Nat := trees.flatMap ids

@[simp] theorem idsOfTrees_nil : idsOfTrees [] = [] := rfl

@[simp] theorem idsOfTrees_cons (t : Tagged) (trees : List Tagged) :
    idsOfTrees (t :: trees) = t.ids ++ idsOfTrees trees := List.flatMap_cons

@[simp] theorem idsOfTrees_append (first second : List Tagged) :
    idsOfTrees (first ++ second) = idsOfTrees first ++ idsOfTrees second := List.flatMap_append

theorem count_idsOfTrees_reverse (trees : List Tagged) (i : Nat) :
    (idsOfTrees trees.reverse).count i = (idsOfTrees trees).count i :=
  ((List.reverse_perm trees).flatMap_right ids).count_eq i

/-- Where identities come up once, a node is in one tree only. -/
theorem index_eq {trees : List Tagged} (honce : ∀ i, (idsOfTrees trees).count i ≤ 1) {k l : Nat}
    {t u : Tagged} (ht : trees[k]? = some t) (hu : trees[l]? = some u) {i : Nat} (hi : i ∈ t.ids)
    (hi' : i ∈ u.ids) : k = l := by
  induction trees generalizing k l with
  | nil => cases ht
  | cons first rest ih =>
      have hfirst := honce i
      rw [idsOfTrees_cons, List.count_append] at hfirst
      -- A node of a tree behind the first is in the trees behind the first.
      have hrest : ∀ {k : Nat} {t : Tagged}, rest[k]? = some t → i ∈ t.ids →
          0 < (idsOfTrees rest).count i := fun hk hmem =>
        List.count_pos_iff.mpr (List.mem_flatMap.mpr ⟨_, List.mem_of_getElem? hk, hmem⟩)
      cases k with
      | zero =>
          cases ht
          have hpos := List.count_pos_iff.mpr hi
          cases l with
          | zero => rfl
          | succ l =>
              have := hrest hu hi'
              omega
      | succ k =>
          cases l with
          | zero =>
              cases hu
              have hpos := List.count_pos_iff.mpr hi'
              have := hrest ht hi
              omega
          | succ l =>
              have honce' : ∀ i, (idsOfTrees rest).count i ≤ 1 := fun i => by
                have := honce i
                rw [idsOfTrees_cons, List.count_append] at this
                omega
              rw [ih honce' ht hu]

/-- All the trees that there are, and the next identity. -/
structure Forest where
  trees : List Tagged
  next : Nat

/-- The identities in all trees. -/
def Forest.ids (forest : Forest) : List Nat := idsOfTrees forest.trees

/-- What a new tree is made from. -/
inductive Source where
  /-- a document -/
  | read (json : Json)
  /-- a value that the tree is to denote -/
  | build (value : Value)
  /-- nothing: a node without fields -/
  | new (kind : Kind)
  /-- another tree, or a part of one -/
  | copy (of : Tagged)

/-- The tree that is made from a source. -/
def Source.node : Source → Except Error Node
  | .read json => Node.ofJson json
  | .build value => .ok (Expression.ofValue value)
  | .new kind => .ok ⟨kind, []⟩
  | .copy t => .ok t.forget

/-- When a node gets its identity. A node that is read is there when all its fields are. -/
def Source.order : Source → Order
  | .read _ => .last
  | _ => .first

/-- A change of trees in which no node comes to be twice. -/
structure Rearrangement where
  move : List Tagged → List Tagged
  count_le : ∀ trees i, (idsOfTrees (move trees)).count i ≤ (idsOfTrees trees).count i

namespace Forest

/-- Make a tree, before all others. -/
def make (forest : Forest) (source : Source) : Except Error Forest :=
  source.node.map fun n =>
    ⟨n.number source.order forest.next :: forest.trees, forest.next + n.size⟩

/-- Rearrange the trees. -/
def rearrange (forest : Forest) (r : Rearrangement) : Forest := ⟨r.move forest.trees, forest.next⟩

theorem conserved_make {forest made : Forest} {source : Source} (h : forest.make source = .ok made) :
    Conserved forest.next made.next forest.ids made.ids := by
  unfold make at h
  cases hnode : source.node with
  | error error => rw [hnode] at h; cases h
  | ok n =>
      rw [hnode] at h
      cases h
      simp only [ids, idsOfTrees_cons]
      exact conserved_draw (Node.perm_ids_number ..) _

theorem conserved_rearrange (forest : Forest) (r : Rearrangement) :
    Conserved forest.next (forest.rearrange r).next forest.ids (forest.rearrange r).ids :=
  .of_count_le (r.count_le forest.trees)

end Forest

end Minifier.Tagged
