import Minifier.Proofs.Identity.Optimizer
import Minifier.Proofs.Identity.Place

/-!
# Identities over the life of all trees

Trees are made, copied, rearranged, walked over by visitors and optimized, in any order. `Forest.run` is what
comes of a list of such events, from no trees and the first identity on. Each event conserves identities
(`conserved_step`), so at all times no two nodes have the same one (`distinct_run`).
-/

namespace Minifier.Tagged

/-- The error that stopped a walk, if one did. -/
def Walked.error {σ : Type} (w : Walked σ) : Option Error :=
  match w.stop with
  | some (.failed error) => some error
  | _ => none

/-- Copy a tree and optimize the copy, with nothing else at hand. -/
def optimized (tree : Tagged) (next : Nat) : Walked Unit :=
  optimizer.run tree.forget.size (tree.forget.number .first next) () ⟨[], next + tree.forget.size⟩

/-- What can happen. What needs a tree happens to the first one. -/
inductive Event where
  | make (source : Source)
  | rearrange (r : Rearrangement)
  /-- a visitor walks over the first tree, with the others at hand -/
  | traverse {σ η : Type} (v : Visitor σ η) (state : σ) (levels : Nat)
  /-- an optimized copy is put before the first tree, unless the optimizer fails -/
  | optimize

namespace Forest

/-- What comes of an event. -/
def step (forest : Forest) : Event → Forest
  | .make source =>
    match forest.make source with
    | .ok made => made
    | .error _ => forest
  | .rearrange r => forest.rearrange r
  | .traverse v state levels =>
    match forest.trees with
    | [] => forest
    | tree :: rest =>
      let site := (v.run levels tree state ⟨rest, forest.next⟩).site
      ⟨site.tree :: site.forest.trees, site.forest.next⟩
  | .optimize =>
    match forest.trees with
    | [] => forest
    | tree :: rest =>
      let w := optimized tree forest.next
      match w.error with
      | none => ⟨w.site.tree :: tree :: rest, w.site.forest.next⟩
      | some _ => ⟨tree :: rest, w.site.forest.next⟩

/-- What comes of all events, from no trees on. Identities are counted from one. -/
def run (events : List Event) : Forest := events.foldl step ⟨[], 1⟩

theorem conserved_optimized (tree : Tagged) (next : Nat) (aside : List Nat) :
    Conserved next (optimized tree next).site.forest.next aside
      ((optimized tree next).site.tree.ids ++ aside) := by
  have hcopy := conserved_draw (Node.perm_ids_number .first tree.forget next) aside
  have hwalk := (optimizer.passage_run tree.forget.size (tree.forget.number .first next) ()
    ⟨[], next + tree.forget.size⟩).conserved.frame aside
  refine (hcopy.trans (hwalk.mono (fun i => ?_) fun i => ?_))
  · simp only [Site.ids, ids, idsOfTrees_nil, List.nil_append, List.append_nil]
    exact Nat.le_refl _
  · simp only [Site.ids, List.nil_append, List.count_append, optimized]
    omega

theorem conserved_step (forest : Forest) (event : Event) :
    Conserved forest.next (forest.step event).next forest.ids (forest.step event).ids := by
  cases event with
  | make source =>
      simp only [step]
      cases hmade : forest.make source with
      | error error => exact .refl ..
      | ok made => exact conserved_make hmade
  | rearrange r => exact conserved_rearrange forest r
  | traverse v state levels =>
      obtain ⟨trees, next⟩ := forest
      cases trees with
      | nil => exact .refl ..
      | cons tree rest =>
          have hwalk := (v.passage_run levels tree state ⟨rest, next⟩).conserved
          simpa only [step, Site.ids, ids, List.nil_append, idsOfTrees_cons] using hwalk
  | optimize =>
      obtain ⟨trees, next⟩ := forest
      cases trees with
      | nil => exact .refl ..
      | cons tree rest =>
          have hwalk := conserved_optimized tree next (idsOfTrees (tree :: rest))
          simp only [step]
          cases (optimized tree next).error with
          | none => exact hwalk
          | some error =>
              refine hwalk.mono (fun i => Nat.le_refl _) fun i => ?_
              rw [List.count_append]
              exact Nat.le_add_left ..

/-- At all times, no two nodes have the same identity. -/
theorem distinct_run (events : List Event) : Distinct (run events).next (run events).ids := by
  have hfrom : ∀ forest : Forest, Distinct forest.next forest.ids →
      Distinct (events.foldl step forest).next (events.foldl step forest).ids := by
    induction events with
    | nil => exact fun _ h => h
    | cons event events ih => exact fun forest h => ih _ ((forest.conserved_step event).distinct h)
  refine hfrom ⟨[], 1⟩ ⟨List.nodup_nil, fun i hi => ?_⟩
  cases hi

end Forest

/-- The optimizer that runs makes of a tree what is made of it here. -/
theorem optimize_eq (tree : Tagged) (next : Nat) :
    Optimize.optimize tree.forget = match (optimized tree next).error with
      | none => .ok (optimized tree next).site.tree.forget
      | some error => .error error := by
  have hrun := Visitor.forget_run erases_optimizer tree.forget.size (tree.forget.number .first next) ()
    ⟨[], next + tree.forget.size⟩
  rw [Node.forget_number] at hrun
  have hunit : Optimizer.unseen () [] = () := rfl
  rw [hunit] at hrun
  unfold Optimize.optimize
  rw [hrun]
  rfl

/-- Numbers that are still to be drawn fit a machine word, so no two of those drawn become one. -/
theorem Distinct.nodup_words {next : Nat} {ids : List Nat} (h : Distinct next ids)
    (hnext : next ≤ UInt64.size) : (ids.map UInt64.ofNat).Nodup := by
  refine h.nodup.map_on fun i hi j hj hij => ?_
  have hword := congrArg UInt64.toNat hij
  rwa [UInt64.toNat_ofNat_of_lt', UInt64.toNat_ofNat_of_lt'] at hword
  · exact Nat.lt_of_lt_of_le (h.lt_next j hj) hnext
  · exact Nat.lt_of_lt_of_le (h.lt_next i hi) hnext

/-- Making a tree makes the tree of its source. -/
theorem forget_make (forest : Forest) (source : Source) :
    (forest.make source).map (fun made => made.trees.map forget)
      = source.node.map (· :: forest.trees.map forget) := by
  unfold Forest.make
  cases source.node with
  | error error => rfl
  | ok n =>
      show Except.ok (_ :: _) = Except.ok (_ :: _)
      rw [Node.forget_number]

/-- **Identities are unique, and nodes keep them.** Whatever has happened,

* nodes with the same identity are the same node of the same tree, and identities stay distinct as machine
  words, as long as these have not run out;
* a node of the first tree that a walk keeps in its place stands there, whatever else the visitor does, and
  whether or not the walk comes to its end; so does one that a patch leaves where it is;
* what is done to trees with identities is what is done to trees: sources, walks, patches and the optimizer
  give the same trees and the same errors. -/
theorem identities_unique_and_kept (events : List Event) :
    (∀ (k l : Nat) (t u n m : Tagged) (p q : Path),
      (Forest.run events).trees[k]? = some t → (Forest.run events).trees[l]? = some u →
      t.at? p = some n → u.at? q = some m → n.id = m.id → k = l ∧ p = q) ∧
    ((Forest.run events).next ≤ UInt64.size → ((Forest.run events).ids.map UInt64.ofNat).Nodup) ∧
    (∀ source, ((Forest.run events).make source).map (fun made => made.trees.map forget)
      = source.node.map (· :: (Forest.run events).trees.map forget)) ∧
    ∀ tree rest, (Forest.run events).trees = tree :: rest →
      (∀ {σ η : Type} (v : Visitor σ η) (state : σ) (levels : Nat) (place : Place) (i : Nat),
        tree.Stands place i →
        (∀ call ∈ (v.run levels tree state ⟨rest, (Forest.run events).next⟩).site.calls,
          call.Spares place i) →
        (v.run levels tree state ⟨rest, (Forest.run events).next⟩).site.tree.Stands place i) ∧
      (∀ {σ τ η : Type} (v : Visitor σ η) (plain : Minifier.Visitor τ η) (view : σ → List Tagged → τ)
        (state : σ) (levels : Nat), v.Erases view plain →
        (plain.run levels tree.forget (view state rest)).tree
            = (v.run levels tree state ⟨rest, (Forest.run events).next⟩).site.tree.forget ∧
          (plain.run levels tree.forget (view state rest)).stop
            = (v.run levels tree state ⟨rest, (Forest.run events).next⟩).stop) ∧
      (∀ (deep : Bool) (members : List (String × Json)) (path : Path) (n : Tagged),
        tree.at? path = some n → Patch.Retains path deep members →
        ∃ m, (Patch.apply deep tree (Forest.run events).next (.object members)).1.result.at? path
          = some m ∧ m.id = n.id) ∧
      (∀ (deep : Bool) (json : Json),
        (Patch.apply deep tree (Forest.run events).next json).1.map forget
          = Minifier.Patch.apply deep tree.forget json) ∧
      Optimize.optimize tree.forget = match (optimized tree (Forest.run events).next).error with
        | none => .ok (optimized tree (Forest.run events).next).site.tree.forget
        | some error => .error error := by
  have hdistinct := Forest.distinct_run events
  have honce := List.nodup_iff_count_le_one.mp hdistinct.nodup
  refine ⟨?_, hdistinct.nodup_words, forget_make _, fun tree rest htrees => ⟨?_, ?_, ?_, ?_, ?_⟩⟩
  · intro k l t u n m p q hk hl hp hq hid
    have hn : n.id ∈ t.ids := mem_ids_of_at? hp (mem_ids_self n)
    have hm : n.id ∈ u.ids := mem_ids_of_at? hq (hid ▸ mem_ids_self m)
    have hkl : k = l := index_eq honce hk hl hn hm
    subst hkl
    cases Option.some.inj (hk.symm.trans hl)
    have honce' : ∀ i, t.ids.count i ≤ 1 := by
      have hnodup := (List.nodup_flatMap.mp hdistinct.nodup).1 t (List.mem_of_getElem? hk)
      exact List.nodup_iff_count_le_one.mp hnodup
    exact ⟨rfl, path_eq honce' hp hq hid⟩
  · intro σ η v state levels place i hstands hspares
    apply v.stands_run levels state ?_ hstands hspares
    rw [Forest.ids, htrees, idsOfTrees_cons] at hdistinct
    exact hdistinct
  · intro σ τ η v plain view state levels herases
    have hrun := Visitor.forget_run herases levels tree state ⟨rest, (Forest.run events).next⟩
    exact ⟨congrArg Minifier.Walked.tree hrun, congrArg Minifier.Walked.stop hrun⟩
  · intro deep members path n hat hretains
    exact Patch.at?_mergeNode hretains hat _
  · intro deep json
    exact (Patch.made_apply deep tree _ json).forget_eq
  · exact optimize_eq tree _

/-- The document of a program with an empty statement before a `return`. -/
def emptyThenReturn : Json :=
  .object [("type", .string "Program"), ("body", .array
    [.object [("type", .string "EmptyStatement")], .object [("type", .string "ReturnStatement")]])]

/-- The tree that is read from it. -/
def readProgram : Tagged :=
  ⟨3, .program, [("body", .list [some ⟨1, .emptyStatement, []⟩, some ⟨2, .returnStatement, []⟩])]⟩

/-- The visitor that removes empty statements. -/
def dropEmpty : Visitor Unit Unit where
  enter := .look fun (c, _, _) =>
    if c.node.kind = .emptyStatement then .after .remove .done else .done
  leave _ := .done

/-- The calls of `dropEmpty` spare the `return`. -/
theorem dropEmpty_spares :
    ∀ call ∈ (dropEmpty.run 2 readProgram () ⟨[], 4⟩).site.calls, call.Spares (.inField 3 "body") 2 := by
  have hcalls : (dropEmpty.run 2 readProgram () ⟨[], 4⟩).site.calls =
      [⟨⟨2, .returnStatement, []⟩, ⟨2, .returnStatement, []⟩, .kept, false, false⟩,
       ⟨⟨1, .emptyStatement, []⟩, ⟨1, .emptyStatement, []⟩, .removed, false, false⟩,
       ⟨readProgram, readProgram, .kept, false, false⟩] := rfl
  rw [hcalls, List.forall_mem_cons, List.forall_mem_cons, List.forall_mem_singleton]
  refine ⟨fun _ => ⟨fun _ => rfl, fun hedited => ?_⟩, fun hmem => ?_,
    fun _ => ⟨fun _ => rfl, fun hedited => ?_⟩⟩
  · cases hedited
  · exact absurd hmem (by decide)
  · cases hedited

/-- When the statement before it is removed, the `return` of the program that was read stands in the body
with its identity; a patch of the first statement leaves it where it is; and the optimizer walks over the
program as it does without identities. -/
theorem return_keeps_identity :
    (Forest.run [.make (.read emptyThenReturn)]).trees = [readProgram] ∧
    (dropEmpty.run 2 readProgram () ⟨[], 4⟩).site.tree.Stands (.inField 3 "body") 2 ∧
    (∃ m, (Patch.apply true readProgram 4 (.object [("body", .array [.object []])])).1.result.at?
      [⟨"body", some 1⟩] = some m ∧ m.id = 2) ∧
    (Optimize.optimizer.run 2 readProgram.forget ()).stop
      = (optimizer.run 2 readProgram () ⟨[], 4⟩).stop := by
  obtain ⟨-, -, -, hfirst⟩ := identities_unique_and_kept [.make (.read emptyThenReturn)]
  obtain ⟨hwalk, hforget, hpatch, -, -⟩ := hfirst readProgram [] rfl
  refine ⟨rfl, hwalk dropEmpty () 2 _ _ ?_ dropEmpty_spares, ?_, ?_⟩
  · exact ⟨[], readProgram, ⟨"body", some 1⟩, ⟨2, .returnStatement, []⟩, rfl, rfl, rfl, rfl, rfl⟩
  · refine hpatch true _ [⟨"body", some 1⟩] ⟨2, .returnStatement, []⟩ rfl fun json hmem => ?_
    cases List.mem_singleton.mp hmem
    exact ⟨rfl, trivial⟩
  · exact (hforget optimizer Optimize.optimizer Optimizer.unseen () 2 erases_optimizer).2

end Minifier.Tagged
