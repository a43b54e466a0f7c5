import Minifier.Optimize.Optimizer
import Minifier.Proofs.Identity.Action

/-!
# The optimizer on trees with identities

What the optimizer puts into a tree it makes first: the expression for a value, an empty statement, or a copy
of the branch of an `if` that is taken. A branch that is dissolved is copied, its statements are copied once more, and
the first copy is dropped. What is never reached is dropped in place. `optimizer` does all this in scripts,
and without identities it is the optimizer that runs (`erases_optimizer`).
-/

namespace Minifier.Tagged

namespace Optimizer

open Optimize (Hook)

/-! ## The scripts -/

/-- Put a constant in the place of an expression. It is made before it is compared. -/
def foldExpression : Script Unit Hook :=
  .look fun (c, _, _) =>
    if c.node.forget.text? "operator" != some "void" then
      match Optimize.valueAt? c.forget c.node.forget with
      | none => .done
      | some value =>
        .after (.make (.build value)) <|
          if (Expression.ofValue value).same c.node.forget then .after .drop .done
          else .after .replace .done
    else .done

/-- Drop `"use strict"`, and shorten `void e`. -/
def simplifyStatement : Script Unit Hook :=
  .look fun (c, _, _) =>
    if Optimize.directive? c.node.forget == some "use strict"
        && c.index?.any (Optimize.inPrologue c.forget.ancestors) then
      .after .remove .done
    else if Optimize.discardsVoid c.node.forget then .after (.patch true Optimize.negatePatch) .done
    else .done

/-- The children in a list field, without the holes. -/
def children (t : Tagged) (name : String) : List Tagged :=
  ((t.slots? name).getD []).filterMap fun slot => slot

/-- The branches of an `if` by the truth of its test: the one that is taken, and the other. -/
def branches (statement : Tagged) (test : Bool) : Option Tagged × Option Tagged :=
  let consequent := statement.child? "consequent"
  let alternate := statement.child? "alternate"
  if test then (consequent, alternate) else (alternate, consequent)

/-- Put copies of the statements of a block, which is the first tree at hand, in the place of the node, and
drop the block. -/
def dissolve : Script Unit Hook :=
  .look fun (_, _, forest) =>
    let statements := forest.trees.head?.elim [] (children · "body")
    .copies statements (.after (.splice statements.length) (.after .drop .done))

/-- Put the branch that is taken in the place of an `if`. -/
def foldIf : Script Unit Hook :=
  .look fun (c, _, _) =>
    match (c.node.forget.child? "test").bind (Optimize.valueAt? c.forget) with
    | none => .done
    | some test =>
      let (taken, untaken) := branches c.node test.truthy
      if untaken.any fun branch => Optimize.declaresVar branch.forget then .done
      else
        match taken, c.index? with
        | none, some _ => .after .remove .done
        | none, none => .after (.make (.new .emptyStatement)) (.after .replace .done)
        | some statement, some _ =>
          .after (.make (.copy statement)) <|
            if statement.kind = .blockStatement ∧ !Optimize.hasLexical statement.forget then dissolve
            else .after .replace .done
        | some statement, none => .after (.make (.copy statement)) (.after .replace .done)

/-! ### What is never reached -/

/-- What is left of a statement that is never reached. -/
def unreachableRemainder? (statement : Tagged) : Option Tagged :=
  if statement.kind = .functionDeclaration then some statement
  else if Optimize.isVarDeclaration statement.forget then
    (statement.slots? "declarations").map fun declarators =>
      if Optimize.isPlainDeclaration (forgetSlots declarators) then
        statement.set "declarations"
          (.list (declarators.map (·.map (·.set "init" (.value .null)))))
      else statement
  else none

/-- What is left of statements that are never reached. -/
def remainders (slots : List (Option Tagged)) : List (Option Tagged) :=
  ((slots.filterMap fun slot => slot).filterMap unreachableRemainder?).map some

/-- Statements up to the first return, and what is left of the others. -/
def pruneStatements : List (Option Tagged) → List (Option Tagged)
  | [] => []
  | slot :: rest =>
    if Optimize.isReturn (slot.map forget) then slot :: remainders rest
    else slot :: pruneStatements rest

/-- Drop what is never reached from the body of a block. -/
def prune (block : Tagged) : Tagged :=
  match block.slots? "body" with
  | some slots => block.set "body" (.list (pruneStatements slots))
  | none => block

theorem count_set_value_le (t : Tagged) (name : String) (json : Json) (i : Nat) :
    (t.set name (.value json)).ids.count i ≤ t.ids.count i := by
  simpa [idsOfField] using count_set_le t name (.value json) i

theorem count_map_set_value_le (slots : List (Option Tagged)) (name : String) (json : Json) (i : Nat) :
    (idsOfSlots (slots.map (·.map (·.set name (.value json))))).count i ≤ (idsOfSlots slots).count i := by
  induction slots with
  | nil => exact Nat.le_refl _
  | cons slot rest ih =>
      cases slot with
      | none => exact ih
      | some t =>
          have := count_set_value_le t name json i
          simp only [List.map_cons, Option.map_some, idsOfSlots, List.count_append]
          omega

theorem count_unreachableRemainder?_le {statement left : Tagged}
    (h : unreachableRemainder? statement = some left) (i : Nat) :
    left.ids.count i ≤ statement.ids.count i := by
  unfold unreachableRemainder? at h
  split at h
  · cases h
    exact Nat.le_refl _
  · split at h
    · obtain ⟨declarators, hslots, hleft⟩ := Option.map_eq_some_iff.mp h
      split at hleft
      · subst hleft
        have hset := count_set (slots?_eq_some_iff.mp hslots)
          (.list (declarators.map (·.map (·.set "init" (.value .null))))) i
        have hinit := count_map_set_value_le declarators "init" .null i
        simp only [idsOfField] at hset
        omega
      · subst hleft
        exact Nat.le_refl _
    · cases h

theorem remainders_cons (statement : Tagged) (rest : List (Option Tagged)) :
    remainders (some statement :: rest) = match unreachableRemainder? statement with
      | none => remainders rest
      | some left => some left :: remainders rest := by
  simp only [remainders, List.filterMap_cons]
  cases unreachableRemainder? statement <;> rfl

theorem count_remainders_le (slots : List (Option Tagged)) (i : Nat) :
    (idsOfSlots (remainders slots)).count i ≤ (idsOfSlots slots).count i := by
  induction slots with
  | nil => exact Nat.le_refl _
  | cons slot rest ih =>
      cases slot with
      | none => exact ih
      | some statement =>
          rw [remainders_cons, count_slots_cons]
          cases hleft : unreachableRemainder? statement with
          | none =>
              dsimp only
              omega
          | some left =>
              have hle : (idsOfSlot (some left)).count i ≤ (idsOfSlot (some statement)).count i :=
                count_unreachableRemainder?_le hleft i
              dsimp only
              rw [count_slots_cons]
              omega

theorem count_pruneStatements_le (slots : List (Option Tagged)) (i : Nat) :
    (idsOfSlots (pruneStatements slots)).count i ≤ (idsOfSlots slots).count i := by
  induction slots with
  | nil => exact Nat.le_refl _
  | cons slot rest ih =>
      rw [pruneStatements]
      split
      · have := count_remainders_le rest i
        rw [count_slots_cons, count_slots_cons]
        omega
      · rw [count_slots_cons, count_slots_cons]
        omega

theorem count_prune_le (block : Tagged) (i : Nat) : (prune block).ids.count i ≤ block.ids.count i := by
  unfold prune
  cases hslots : block.slots? "body" with
  | none => exact Nat.le_refl _
  | some slots =>
      have hset := count_set (slots?_eq_some_iff.mp hslots) (.list (pruneStatements slots)) i
      have hle := count_pruneStatements_le slots i
      simp only [idsOfField] at hset
      dsimp only
      omega

/-- Prune the node of the position. -/
def pruning : Rearrangement where
  move trees := (trees.take 1).map prune ++ trees.drop 1
  count_le trees i := by
    cases trees with
    | nil => exact Nat.le_refl _
    | cons node trees =>
        have := count_prune_le node i
        simp only [List.take_succ_cons, List.take_zero, List.map_cons, List.map_nil, List.drop_succ_cons,
          List.drop_zero, List.cons_append, List.nil_append, idsOfTrees_cons, List.count_append]
        omega

/-- What the optimizer does on meeting a position. -/
def enter : Script Unit Hook :=
  .look fun (c, _, _) =>
    match c.node.kind with
    | .binaryExpression | .logicalExpression | .unaryExpression => foldExpression
    | .expressionStatement => simplifyStatement
    | .ifStatement => .after (.onLeave .foldIf) .done
    | .blockStatement => .after (.onLeave .prune) .done
    | _ => .done

/-- What the optimizer does on leaving a position. -/
def leave : Hook → Script Unit Hook
  | .foldIf => foldIf
  | .prune => .after (.rearrange pruning) .done

/-! ## Without identities -/

theorem forget_children (t : Tagged) (name : String) :
    (children t name).map forget = t.forget.children name := by
  have hslots : ∀ slots : List (Option Tagged),
      (slots.filterMap fun slot => slot).map forget = (forgetSlots slots).filterMap fun slot => slot := by
    intro slots
    rw [forgetSlots_eq_map, List.map_filterMap, List.filterMap_map]
    rfl
  unfold children Node.children
  rw [forget_slots?, hslots]
  cases t.slots? name <;> rfl

theorem forget_branches (statement : Tagged) (test : Bool) :
    Optimize.branches statement.forget test
      = ((branches statement test).1.map forget, (branches statement test).2.map forget) := by
  unfold Optimize.branches branches
  rw [forget_child?, forget_child?]
  cases test <;> rfl

theorem forget_unreachableRemainder? (statement : Tagged) :
    Optimize.unreachableRemainder? statement.forget = (unreachableRemainder? statement).map forget := by
  unfold Optimize.unreachableRemainder? unreachableRemainder?
  rw [kind_forget, forget_slots?]
  split
  · rfl
  · split
    · cases statement.slots? "declarations" with
      | none => rfl
      | some declarators =>
          simp only [Option.map_some]
          split
          · rw [forget_set, forgetField, forgetSlots_eq_map, forgetSlots_eq_map, List.map_map,
              List.map_map]
            simp [Function.comp_def, Node.setValue, forget_set, forgetField]
          · rfl
    · rfl

theorem forgetSlots_cons (slot : Option Tagged) (rest : List (Option Tagged)) :
    forgetSlots (slot :: rest) = slot.map forget :: forgetSlots rest := by
  rw [forgetSlots_eq_map, forgetSlots_eq_map, List.map_cons]

theorem forget_remainders (slots : List (Option Tagged)) :
    (((forgetSlots slots).filterMap fun slot => slot).filterMap Optimize.unreachableRemainder?).map some
      = forgetSlots (remainders slots) := by
  induction slots with
  | nil => rfl
  | cons slot rest ih =>
      rw [forgetSlots_cons]
      cases slot with
      | none => exact ih
      | some statement =>
          simp only [remainders_cons, Option.map_some, List.filterMap_cons, forget_unreachableRemainder?]
          cases unreachableRemainder? statement with
          | none => exact ih
          | some left =>
              dsimp only [Option.map_some]
              rw [List.map_cons, forgetSlots_cons, ih]
              rfl

theorem forget_pruneStatements (slots : List (Option Tagged)) :
    Optimize.pruneStatements (forgetSlots slots) = forgetSlots (pruneStatements slots) := by
  induction slots with
  | nil => rfl
  | cons slot rest ih =>
      rw [forgetSlots_cons, Optimize.pruneStatements, pruneStatements]
      split
      · rw [forgetSlots_cons, ← forget_remainders]
        rfl
      · rw [forgetSlots_cons, ih]

theorem forget_prune (block : Tagged) : (prune block).forget = Optimize.prune block.forget := by
  unfold prune Optimize.prune
  rw [forget_slots?]
  cases block.slots? "body" with
  | none => rfl
  | some slots => simp only [Option.map_some, forget_set, forgetField, forget_pruneStatements]

/-- The optimizer has no state, and does not look at the trees at hand. -/
def unseen : Unit → List Tagged → Unit := fun _ _ => ()

theorem erases_foldExpression : foldExpression.Erases unseen Optimize.foldExpression := by
  intro c _ forest
  have hnode : c.forget.node = c.node.forget := rfl
  unfold Optimize.foldExpression
  rw [Action.cursor_bind, hnode]
  simp only [foldExpression, Script.play]
  split
  · cases Optimize.valueAt? c.forget c.node.forget with
    | none => rfl
    | some value =>
        dsimp only
        rw [play_make (n := Expression.ofValue value) rfl]
        split
        · rfl
        · exact replace_play () rfl (Node.forget_number ..)
  · rfl

theorem erases_simplifyStatement : simplifyStatement.Erases unseen Optimize.simplifyStatement := by
  intro c _ forest
  have hnode : c.forget.node = c.node.forget := rfl
  have hindex : c.forget.index? = c.index? := rfl
  unfold Optimize.simplifyStatement
  rw [Action.cursor_bind, hnode, hindex]
  simp only [simplifyStatement, Script.play]
  split
  · exact remove_play ()
  · split
    · exact patch_play () true Optimize.negatePatch
    · rfl

theorem dissolve_play {c : Cursor Hook} (h : c.index?.isNone = false) {forest : Forest} {block : Tagged}
    {n : Node} {trees : List Tagged} (hforest : forest.trees = block :: trees) (hn : block.forget = n) :
    Action.replaceWithMany (n.children "body") (c.forget, ())
      = toResult unseen (dissolve.play (c, (), forest)) := by
  have hindex : c.forget.index?.isNone = false := h
  rw [Action.replaceWithMany_eq hindex]
  obtain ⟨made, drawn, hmade, hplay⟩ := play_copies (children block "body")
    (.after (.splice (children block "body").length) (.after .drop .done)) c () forest
  have hlength : (children block "body").length = made.length := by
    have := congrArg List.length hmade
    simpa using this.symm
  have hdissolve : dissolve.play (c, (), forest)
      = (Script.copies (children block "body") (.after (.splice (children block "body").length)
          (.after .drop .done))).play (c, (), forest) := by
    simp only [dissolve, Script.play, hforest, List.head?_cons, Option.elim_some]
  rw [hdissolve, hplay, hlength, play_splice h, ← hn, ← forget_children, ← hmade]
  rfl

theorem erases_foldIf : foldIf.Erases unseen Optimize.foldIf := by
  intro c _ forest
  have hnode : c.forget.node = c.node.forget := rfl
  have hindex : c.forget.index? = c.index? := rfl
  unfold Optimize.foldIf
  rw [Action.cursor_bind, hnode, hindex]
  simp only [foldIf, Script.play]
  cases (c.node.forget.child? "test").bind (Optimize.valueAt? c.forget) with
  | none => rfl
  | some test =>
      have huntaken : ((branches c.node test.truthy).2.map forget).any Optimize.declaresVar
          = (branches c.node test.truthy).2.any fun branch => Optimize.declaresVar branch.forget := by
        cases (branches c.node test.truthy).2 <;> rfl
      dsimp only
      rw [forget_branches]
      dsimp only
      rw [huntaken]
      split
      · rfl
      · cases (branches c.node test.truthy).1 with
        | none =>
            cases hindex' : c.index? with
            | none =>
                rw [play_make (n := ⟨.emptyStatement, []⟩) rfl]
                exact replace_play () rfl (Node.forget_number ..)
            | some k => exact remove_play ()
        | some statement =>
            cases hindex' : c.index? with
            | none =>
                rw [play_make (n := statement.forget) rfl]
                exact replace_play () rfl (Node.forget_number ..)
            | some k =>
                have hlisted : c.index?.isNone = false := by rw [hindex']; rfl
                simp only [Option.map_some, kind_forget]
                rw [play_make (n := statement.forget) rfl]
                split
                · exact dissolve_play hlisted rfl (Node.forget_number ..)
                · exact replace_play () rfl (Node.forget_number ..)

theorem erases_enter : enter.Erases unseen Optimize.enter := by
  intro c u forest
  have hnode : c.forget.node = c.node.forget := rfl
  unfold Optimize.enter
  rw [Action.node_bind, hnode, kind_forget]
  simp only [enter, Script.play]
  cases c.node.kind with
  | binaryExpression => exact erases_foldExpression c u forest
  | logicalExpression => exact erases_foldExpression c u forest
  | unaryExpression => exact erases_foldExpression c u forest
  | expressionStatement => exact erases_simplifyStatement c u forest
  | _ => rfl

theorem erases_leave (hook : Hook) : (leave hook).Erases unseen (Optimize.leave hook) := by
  cases hook with
  | foldIf => exact erases_foldIf
  | prune =>
      intro c _ forest
      have hupdate : Optimize.leave .prune (c.forget, ())
        = .ok () ({ c.forget with node := Optimize.prune c.node.forget }, ()) := rfl
      rw [hupdate, ← forget_prune]
      rfl

end Optimizer

/-- The optimizer as a visitor of trees with identities. -/
def optimizer : Visitor Unit Optimize.Hook := ⟨Optimizer.enter, Optimizer.leave⟩

theorem erases_optimizer : optimizer.Erases Optimizer.unseen Optimize.optimizer :=
  ⟨Optimizer.erases_enter, Optimizer.erases_leave⟩

end Minifier.Tagged
