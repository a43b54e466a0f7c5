import Minifier.Proofs.Edit.Sweep
import Minifier.Proofs.Optimize.Reduction

/-!
# What the optimizer does at a node

The optimizer looks at a position through a cursor, with the tree around it half rewritten. `Makes around n x`
says that of the node `n` in a slot it makes `x.2`, and that the slot then fares as `x.1` tells. What it
makes of the nodes below enters into that, and `Turn` is the rule by which: a node is folded to a constant, dropped
as a directive, or its fields are swept in order and what is left of it is settled.

`exists_makes` says that the optimizer makes something of every node, and `Makes.induction` is the induction on
what it does, whatever is bound in the tree around.
-/

namespace Minifier

/-! ## Actions on a cursor -/

namespace Action

variable {σ η α : Type} {c : Cursor η}

theorem cursor_bind (f : Cursor η → Action σ η α) (c : Cursor η) (x : σ) :
    (Action.cursor >>= f) (c, x) = f c (c, x) := rfl

theorem node_bind (f : Node → Action σ η α) (c : Cursor η) (x : σ) :
    (Action.node >>= f) (c, x) = f c.node (c, x) := rfl

theorem replace_eq (h : c.isRoot = false) (m : Node) (x : σ) :
    Action.replace m (c, x) = .ok () ({ c with node := m, outcome := .replaced }, x) := by
  unfold Action.replace
  rw [cursor_bind, h]
  rfl

theorem remove_eq (h : c.isRoot = false) (x : σ) :
    Action.remove (c, x) = .ok () ({ c with outcome := .removed }, x) := by
  unfold Action.remove
  rw [cursor_bind, h]
  rfl

theorem replaceWithMany_eq (h : c.index?.isNone = false) (nodes : List Node) (x : σ) :
    Action.replaceWithMany nodes (c, x) = .ok () ({ c with outcome := .spliced nodes }, x) := by
  unfold Action.replaceWithMany
  rw [cursor_bind, h]
  rfl

end Action

namespace Optimize

open Node

variable {c : Cursor Hook} {around : Surroundings} {n m : Node} {value? : Node → Option Value}

/-! ## The rules -/

/-- What is left of an `if` when all below it is done, where `value?` gives the values of expressions. -/
def settleIfBy (value? : Node → Option Value) (listed : Bool) (n : Node) : Settled × Node :=
  match (n.child? "test").bind value? with
  | none => (.keep, n)
  | some test =>
    if (branches n test.truthy).2.any declaresVar then (.keep, n)
    else
      match (branches n test.truthy).1 with
      | none => if listed then (.remove, n) else (.keep, ⟨.emptyStatement, []⟩)
      | some statement =>
        if listed && (statement.kind == .blockStatement && !hasLexical statement) then
          (.flatten (statement.children "body"), n)
        else (.keep, statement)

/-- What is left of a node when all below it is done. -/
def settleBy (value? : Node → Option Value) (listed : Bool) (n : Node) : Settled × Node :=
  match n.kind with
  | .ifStatement => settleIfBy value? listed n
  | .blockStatement => (.keep, prune n)
  | _ => (.keep, n)

/-- Values count for `if`s only. -/
theorem settleBy_of_ne_if (h : n.kind ≠ .ifStatement) (listed : Bool) :
    settleBy value? listed n = settle listed n := by
  unfold settleBy settle
  generalize n.kind = kind at h ⊢
  cases kind with
  | ifStatement => exact absurd rfl h
  | _ => rfl

/-- A node that stands in no list stays in its slot. -/
theorem settleBy_unlisted (n : Node) : (settleBy value? false n).1 = .keep := by
  unfold settleBy
  split
  · unfold settleIfBy
    split
    · rfl
    · split
      · rfl
      · split <;> rfl
  · rfl
  · rfl

theorem foldExpression_eq (hkind : c.node.kind.isOperator = true) :
    foldExpression (c, ()) = match foldedBy (valueAt? c) c.node with
      | some m => Action.replace m (c, ())
      | none => .ok () (c, ()) := by
  unfold foldExpression foldedBy
  rw [Action.cursor_bind, hkind, Bool.true_and]
  split
  · cases valueAt? c c.node with
    | none => rfl
    | some v =>
        rw [Option.bind_some]
        dsimp only
        split <;> rfl
  · rfl

/-- The patch writes the operator of the expression, and nothing else. -/
theorem patch_negate (hkind : c.node.kind = .expressionStatement)
    (hvoid : discardsVoid c.node = true) :
    (Action.patch true negatePatch : Rule) (c, ())
      = .ok () ({ c with node := shorten c.node }, ()) := by
  obtain ⟨e, he, _, hoperator⟩ := discardsVoid_iff.mp hvoid
  have hpatch : Patch.apply true c.node negatePatch = ⟨shorten c.node, none⟩ := by
    rw [shorten_of_discardsVoid hkind he hvoid]
    have hget := child?_eq_some_iff.mp he
    simp [Patch.apply, negatePatch, Patch.mergeNode, Patch.mergeField, hget, hoperator, Attempt.map,
      Field.ofJson, setValue]
  unfold Action.patch
  rw [Action.node_bind, hpatch]
  rfl

/-- What stands in a list is not the root. -/
theorem isRoot_of_index? {i : Nat} (h : c.index? = some i) : c.isRoot = false := by
  cases hpath : c.path with
  | nil => simp [Cursor.index?, hpath] at h
  | cons step rest => simp [Cursor.isRoot, hpath]

theorem simplifyStatement_eq (hkind : c.node.kind = .expressionStatement) :
    simplifyStatement (c, ()) =
      if c.index?.any (inPrologue c.ancestors) && directive? c.node == some "use strict" then
        .ok () ({ c with outcome := .removed }, ())
      else .ok () ({ c with node := shorten c.node }, ()) := by
  unfold simplifyStatement
  rw [Action.cursor_bind, Bool.and_comm]
  split
  · rename_i hdropped
    obtain ⟨i, hi, _⟩ := (Option.any_eq_true ..).mp (Bool.and_eq_true_iff.mp hdropped).1
    exact Action.remove_eq (isRoot_of_index? hi) ()
  · split
    · rename_i hvoid
      exact patch_negate hkind hvoid
    · rename_i hvoid
      rw [shorten_eq_self fun h => hvoid h.2]
      rfl

theorem foldIf_eq (hroot : c.isRoot = false)
    (hkept : c.outcome = .kept) :
    ∃ outcome node, foldIf (c, ()) = .ok () ({ c with node, outcome }, ()) ∧
      settleIfBy (valueAt? c) c.index?.isSome c.node = (outcome.settle, node) := by
  have hself : (.ok () (c, ()) : EStateM.Result Error (Cursor Hook × Unit) Unit)
      = .ok () ({ c with node := c.node, outcome := .kept }, ()) := by
    rw [← hkept]
  unfold foldIf settleIfBy
  rw [Action.cursor_bind]
  cases (c.node.child? "test").bind (valueAt? c) with
  | none => exact ⟨.kept, c.node, hself, rfl⟩
  | some test =>
      dsimp only
      by_cases huntaken : (branches c.node test.truthy).2.any declaresVar = true
      · rw [if_pos huntaken, if_pos huntaken]
        exact ⟨.kept, c.node, hself, rfl⟩
      · rw [if_neg huntaken, if_neg huntaken]
        cases (branches c.node test.truthy).1 with
        | none =>
            cases hindex : c.index? with
            | none => exact ⟨.replaced, _, Action.replace_eq hroot _ (), rfl⟩
            | some i => exact ⟨.removed, c.node, Action.remove_eq hroot (), rfl⟩
        | some statement =>
            cases hindex : c.index? with
            | none => exact ⟨.replaced, statement, Action.replace_eq hroot _ (), rfl⟩
            | some i =>
                have hlisted : c.index?.isNone = false := by rw [hindex]; rfl
                by_cases hblock : statement.kind = .blockStatement ∧ (!hasLexical statement) = true
                · refine ⟨.spliced (statement.children "body"), c.node, ?_, ?_⟩
                  · dsimp only
                    rw [if_pos hblock]
                    exact Action.replaceWithMany_eq hlisted _ ()
                  · simp [hblock.1, hblock.2, Outcome.settle]
                · refine ⟨.replaced, statement, ?_, ?_⟩
                  · dsimp only
                    rw [if_neg hblock]
                    exact Action.replace_eq hroot _ ()
                  · simpa [Outcome.settle] using hblock

/-! ## Positions -/

/-- What the optimizer sees of the tree around a slot. -/
def spotOf (around : Surroundings) : Spot where
  listed := around.head?.any fun f => f.step.index.isSome
  prologue := around.head?.any fun f =>
    f.step.index.any (inPrologue (around.root.ancestors around.path))
  body := around.head?.any fun f => isBodyField f.parent.kind f.step.field

/-- The cursor on the node in a slot. -/
def cursorOn (around : Surroundings) (n : Node) : Cursor Hook :=
  { root := around.root, path := around.path, node := n }

theorem index?_cursorOn (around : Surroundings) (n : Node) :
    (cursorOn around n).index? = around.head?.bind fun f => f.step.index := by
  cases around with
  | nil => rfl
  | cons f around => simp [cursorOn, Cursor.index?, Surroundings.path_cons]

theorem isRoot_cursorOn (h : around ≠ []) (n : Node) : (cursorOn around n).isRoot = false := by
  cases around with
  | nil => exact absurd rfl h
  | cons f around => simp [cursorOn, Cursor.isRoot, Surroundings.path_cons]

theorem listed_spotOf (around : Surroundings) (n : Node) :
    (spotOf around).listed = (cursorOn around n).index?.isSome := by
  rw [index?_cursorOn]
  cases around <;> rfl

theorem prologue_spotOf (around : Surroundings) (n : Node) :
    (spotOf around).prologue
      = (cursorOn around n).index?.any (inPrologue (cursorOn around n).ancestors) := by
  rw [index?_cursorOn]
  cases around <;> rfl

/-- The value of an expression that stands in a slot. -/
def valueIn? (around : Surroundings) (expression : Node) : Option Value :=
  evaluate? (Scope.isBound (around.root.ancestors around.path)) expression

/-! ## Meeting and leaving a node -/

/-- What is to be done on leaving a node. -/
def hook? : Kind → Option Hook
  | .ifStatement => some .foldIf
  | .blockStatement => some .prune
  | _ => none

/-- What meeting a node comes to. -/
def metBy (value? : Node → Option Value) (s : Spot) (n : Node) : (Outcome × Option Hook) × Node :=
  match foldedBy value? n with
  | some constant => ((.replaced, none), constant)
  | none =>
    if s.prologue && directive? n == some "use strict" then ((.removed, none), n)
    else ((.kept, hook? n.kind), shorten n)

theorem metBy_of_plain (s : Spot) (hoperator : n.kind.isOperator = false)
    (hstatement : n.kind ≠ .expressionStatement) : metBy value? s n = ((.kept, hook? n.kind), n) := by
  unfold metBy
  rw [foldedBy_of_not_isOperator _ hoperator, directive?_of_ne hstatement, shorten_of_ne hstatement]
  simp

/-- The cursor after a node was met. -/
def cursorAfter (around : Surroundings) (r : (Outcome × Option Hook) × Node) : Cursor Hook :=
  { root := around.root, path := around.path, node := r.2, outcome := r.1.1, hook := r.1.2 }

theorem foldExpression_cursorOn (hroot : around ≠ [] ∨ foldedBy (valueIn? around) n = none)
    (hkind : n.kind.isOperator = true) :
    foldExpression (cursorOn around n, ())
      = .ok () (cursorAfter around (metBy (valueIn? around) (spotOf around) n), ()) := by
  have hne : ∀ kind : Kind, kind.isOperator = false → n.kind ≠ kind := by
    intro kind hother heq
    rw [heq, hother] at hkind
    cases hkind
  have hstatement : n.kind ≠ .expressionStatement := hne _ rfl
  have hhook : hook? n.kind = none := by
    unfold hook?
    split
    · exact absurd ‹_› (hne _ rfl)
    · exact absurd ‹_› (hne _ rfl)
    · rfl
  rw [foldExpression_eq hkind]
  unfold metBy
  show (match foldedBy (valueIn? around) n with | some m => _ | none => _) = _
  cases hfolded : foldedBy (valueIn? around) n with
  | some m =>
      rw [hfolded, or_iff_left (Option.some_ne_none m)] at hroot
      exact Action.replace_eq (isRoot_cursorOn hroot n) m ()
  | none =>
      rw [directive?_of_ne hstatement, shorten_of_ne hstatement, hhook]
      simp [cursorOn, cursorAfter]

theorem simplifyStatement_cursorOn (around : Surroundings) (hkind : n.kind = .expressionStatement) :
    simplifyStatement (cursorOn around n, ())
      = .ok () (cursorAfter around (metBy (valueIn? around) (spotOf around) n), ()) := by
  rw [simplifyStatement_eq hkind, ← prologue_spotOf]
  unfold metBy
  rw [foldedBy_of_not_isOperator _ (by rw [hkind]; rfl), hkind]
  show (if _ && directive? n == some "use strict" then _ else _) = _
  split
  · rfl
  · rfl

/-- The root is met like any other node, unless a constant is to be put for it. -/
theorem enter_cursorOn (hroot : around ≠ [] ∨ foldedBy (valueIn? around) n = none) :
    enter (cursorOn around n, ())
      = .ok () (cursorAfter around (metBy (valueIn? around) (spotOf around) n), ()) := by
  have hnode : (cursorOn around n).node = n := rfl
  unfold enter
  rw [Action.node_bind, hnode]
  cases hkind : n.kind with
  | binaryExpression => exact foldExpression_cursorOn hroot (by rw [hkind]; rfl)
  | logicalExpression => exact foldExpression_cursorOn hroot (by rw [hkind]; rfl)
  | unaryExpression => exact foldExpression_cursorOn hroot (by rw [hkind]; rfl)
  | expressionStatement => exact simplifyStatement_cursorOn around hkind
  | _ =>
      rw [metBy_of_plain _ (by rw [hkind]; rfl) (by rw [hkind]; exact Kind.noConfusion), hkind]
      rfl

theorem act_of_ok {action : Rule} {c : Cursor Hook} (h : action (cursorOn around n, ()) = .ok () (c, ())) :
    Sweep.act around action (n, ()) = .ok (c.outcome, c.hook) (c.node, ()) := by
  unfold cursorOn at h
  simp only [Sweep.act, h]

theorem act_enter (hroot : around ≠ [] ∨ foldedBy (valueIn? around) n = none) :
    Sweep.act around optimizer.enter (n, ())
      = .ok (metBy (valueIn? around) (spotOf around) n).1
          ((metBy (valueIn? around) (spotOf around) n).2, ()) :=
  act_of_ok (enter_cursorOn hroot)

/-- The root is left like any other node, unless it is an `if`. -/
theorem leave_eq (hroot : around ≠ [] ∨ n.kind ≠ .ifStatement) :
    Sweep.leave optimizer around (hook? n.kind) (n, ())
      = .ok (settleBy (valueIn? around) (spotOf around).listed n).1
          ((settleBy (valueIn? around) (spotOf around).listed n).2, ()) := by
  unfold settleBy
  cases hkind : n.kind with
  | ifStatement =>
      have hinside : around ≠ [] := hroot.resolve_right (not_not_intro hkind)
      obtain ⟨outcome, node, hfold, hsettle⟩ := foldIf_eq (isRoot_cursorOn hinside n) rfl
      rw [← listed_spotOf] at hsettle
      have hsettled : settleIfBy (valueIn? around) (spotOf around).listed n = (outcome.settle, node) := hsettle
      rw [show hook? .ifStatement = some .foldIf from rfl, Sweep.leave_some]
      show EStateM.bind (Sweep.act around foldIf) _ _ = _
      simp only [EStateM.bind, act_of_ok hfold]
      show _ = EStateM.Result.ok (settleIfBy _ _ n).1 ((settleIfBy _ _ n).2, ())
      rw [hsettled]
      rfl
  | _ => rfl

/-! ## The slots of a list -/

theorem ancestors_root_cons {f : Frame} (ho : Surroundings.Open (f :: around)) :
    (Surroundings.root (f :: around)).ancestors (Surroundings.path (f :: around))
      = ⟨around.path, f.parent, f.step⟩ :: (around.wrap f.parent).ancestors around.path := by
  rw [Surroundings.path_cons, Surroundings.root, ancestors_concat (Surroundings.at?_path ho.tail _)]

theorem isProgramBody_cons (parent : Ancestor) (above : List Ancestor) :
    isProgramBody (parent :: above) = (parent.kind == .program || (parent.kind == .blockStatement &&
      above.head?.any fun a => a.kind.isFunction && a.field == "body")) := by
  rw [isProgramBody]
  split
  · rename_i hkind
    rw [hkind]
    rfl
  · rename_i hkind
    rw [hkind]
    rfl
  · rename_i hprogram hblock
    rw [beq_eq_false_iff_ne.mpr hprogram, beq_eq_false_iff_ne.mpr hblock]
    rfl

/-- A node in the slot of a body is one that the spot of its parent opens. -/
theorem isProgramBody_root {f : Frame} (ho : Surroundings.Open (f :: around)) :
    isProgramBody ((Surroundings.root (f :: around)).ancestors (Surroundings.path (f :: around)))
      = (spotOf around).opensBody f.parent.kind := by
  have hhead : ((around.wrap f.parent).ancestors around.path).head?.any
      (fun a => a.kind.isFunction && a.field == "body") = (spotOf around).body := by
    cases around with
    | nil => rfl
    | cons g around =>
        rw [Surroundings.path_cons, Surroundings.wrap,
          ancestors_concat (Surroundings.at?_path ho.tail.tail _)]
        simp [spotOf, isBodyField, Ancestor.kind, Ancestor.field]
  rw [ancestors_root_cons ho, isProgramBody_cons, hhead]
  rfl

/-- A slot holds a directive. -/
def isDirectiveSlot (slot : Option Node) : Bool := slot.any fun s => (directive? s).isSome

theorem inPrologue_cons {parent : Ancestor} {slots : List (Option Node)}
    (h : parent.node.slots? "body" = some slots) (above : List Ancestor) (index : Nat) :
    inPrologue (parent :: above) index
      = (isProgramBody (parent :: above) && (slots.take index).all isDirectiveSlot) := by
  unfold inPrologue
  rw [List.head?_cons, Option.bind_some, h]
  rfl

/-- The parent of a slot in a list, with the slots before it and those behind it. -/
abbrev slotFrame (n : Node) (name : String) (done rest : List (Option Node)) : Frame :=
  ⟨n.set name (.list (done ++ none :: rest)), ⟨name, some done.length⟩⟩

variable {s : Spot} {name : String} {done rest : List (Option Node)}

/-- Programs and blocks have no list but their body. -/
theorem eq_body_of_opensBody (h : s.opensBody n.kind = true) (hname : name ∈ n.kind.fields) :
    name = "body" := by
  unfold Spot.opensBody at h
  rcases Bool.or_eq_true_iff.mp h with hkind | hkind
  · rw [beq_iff_eq.mp hkind] at hname
    exact List.mem_singleton.mp hname
  · rw [beq_iff_eq.mp (Bool.and_eq_true_iff.mp hkind).1] at hname
    exact List.mem_singleton.mp hname

theorem spotOf_slot (hname : name ∈ n.kind.fields)
    (ho : Surroundings.Open (slotFrame n name done rest :: around)) :
    spotOf (slotFrame n name done rest :: around)
      = ⟨true, (spotOf around).opensBody n.kind && done.all isDirectiveSlot,
          isBodyField n.kind name⟩ := by
  have hprologue : inPrologue (ancestors (Surroundings.root (slotFrame n name done rest :: around))
      (Surroundings.path (slotFrame n name done rest :: around))) done.length
        = ((spotOf around).opensBody n.kind && done.all isDirectiveSlot) := by
    have hbody := isProgramBody_root ho
    cases hopens : (spotOf around).opensBody n.kind with
    | false =>
        unfold inPrologue
        rw [hbody.trans hopens]
        rfl
    | true =>
        have hslots : (n.set name (.list (done ++ none :: rest))).slots? name
            = some (done ++ none :: rest) := slots?_eq_some_iff.mpr (get?_set_self ..)
        rw [ancestors_root_cons ho] at hbody ⊢
        rw [eq_body_of_opensBody hopens hname] at hslots hbody ⊢
        rw [inPrologue_cons hslots, hbody.trans hopens, List.take_left]
  show Spot.mk true (inPrologue _ done.length) (isBodyField n.kind name) = _
  rw [hprologue]

/-! ## One turn -/

/-- The parent of a child in a field of its own. -/
abbrev fieldFrame (n : Node) (name : String) : Frame := ⟨n.set name (.value .null), ⟨name, none⟩⟩

section

variable (P : Surroundings → Node → Settled × Node → Prop)

/-- The slots behind those that are `done` are left as the pieces in a row, where each child in its turn is
made what `P` allows. `prologue` tells that only directives of a program or a function are done. -/
inductive SlotsLeft (around : Surroundings) (n : Node) (name : String) :
    Bool → List (Option Node) → List (Option Node) → List (Option Node) → Prop where
  | nil {prologue done} : SlotsLeft around n name prologue done [] []
  | hole {prologue done rest pieces} :
      SlotsLeft around n name false (done ++ [none]) rest pieces →
      SlotsLeft around n name prologue done (none :: rest) (none :: pieces)
  | node {prologue done rest pieces} {c : Node} {x : Settled × Node} :
      spotOf (slotFrame n name done rest :: around) = ⟨true, prologue, isBodyField n.kind name⟩ →
      P (slotFrame n name done rest :: around) c x →
      SlotsLeft around n name (prologue && (directive? x.2).isSome) (done ++ [some x.2]) rest pieces →
      SlotsLeft around n name prologue done (some c :: rest) (x.1.slots (some x.2) ++ pieces)

/-- What a field of a node is left with. -/
inductive ContentLeft (around : Surroundings) (n : Node) (name : String) :
    Field Node → Field Node → Prop where
  | value (json : Json) : ContentLeft around n name (.value json) (.value json)
  | child {c m : Node} : P (fieldFrame n name :: around) c (.keep, m) →
      ContentLeft around n name (.child c) (.child m)
  | list {slots pieces} :
      SlotsLeft P around n name ((spotOf around).opensBody n.kind) [] slots pieces →
      ContentLeft around n name (.list slots) (.list pieces)

/-- What a node is left as when the fields of these names are swept, one by one. -/
inductive FieldsLeft (around : Surroundings) : List String → Node → Node → Prop where
  | nil {n : Node} : FieldsLeft around [] n n
  | absent {name names} {n r : Node} : n.get? name = none → FieldsLeft around names n r →
      FieldsLeft around (name :: names) n r
  | field {name names old new} {n r : Node} : n.get? name = some old → ContentLeft P around n name old new →
      FieldsLeft around names (n.set name new) r → FieldsLeft around (name :: names) n r

/-- What the optimizer makes of the node in a slot, where it makes of the nodes below what `P` allows. -/
inductive Turn (around : Surroundings) (n : Node) : Settled × Node → Prop where
  | folded {m : Node} : foldedBy (valueIn? around) n = some m → Turn around n (.keep, m)
  | dropped : (spotOf around).prologue = true → directive? n = some "use strict" →
      Turn around n (.remove, n)
  | swept {r : Node} : foldedBy (valueIn? around) n = none →
      ¬ ((spotOf around).prologue = true ∧ directive? n = some "use strict") →
      FieldsLeft P around n.kind.fields (shorten n) r →
      Turn around n (settleBy (valueIn? around) (spotOf around).listed r)

end

variable {P Q : Surroundings → Node → Settled × Node → Prop} {name : String} {names : List String}
  {prologue : Bool} {done rest pieces : List (Option Node)} {old new : Field Node} {r : Node}
  {x : Settled × Node}

theorem SlotsLeft.mono (hleft : SlotsLeft P around n name prologue done rest pieces)
    (h : ∀ {a c y}, some c ∈ rest → (spotOf a).body = isBodyField n.kind name → P a c y → Q a c y) :
    SlotsLeft Q around n name prologue done rest pieces := by
  induction hleft with
  | nil => exact .nil
  | hole _ ih => exact .hole (ih fun hc => h (List.mem_cons_of_mem _ hc))
  | node hspot hx _ ih =>
      have hbody := congrArg Spot.body hspot
      exact .node hspot (h (List.mem_cons_self ..) hbody hx) (ih fun hc => h (List.mem_cons_of_mem _ hc))

theorem step?_of_mem_slots {slots : List (Option Node)} {c : Node} (hget : n.get? name = some (.list slots))
    (hc : some c ∈ slots) : ∃ i, n.step? ⟨name, some i⟩ = some c := by
  obtain ⟨i, hi⟩ := List.getElem?_of_mem hc
  exact ⟨i, step?_slot_eq_some_iff.mpr ⟨slots, hget, hi⟩⟩

theorem ContentLeft.mono (hleft : ContentLeft P around n name old new) (hget : n.get? name = some old)
    (h : ∀ {index a c y}, n.step? ⟨name, index⟩ = some c → (spotOf a).body = isBodyField n.kind name →
      P a c y → Q a c y) : ContentLeft Q around n name old new := by
  cases hleft with
  | value json => exact .value json
  | child hm =>
      have hstep : n.step? ⟨name, none⟩ = some _ := child?_eq_some_iff.mpr hget
      exact .child (h hstep rfl hm)
  | list hslots =>
      apply ContentLeft.list
      apply hslots.mono
      intro a c y hc hbody hy
      obtain ⟨i, hstep⟩ := step?_of_mem_slots hget hc
      exact h hstep hbody hy

/-- What is asked of the nodes below may depend on where they stand in the node. -/
theorem FieldsLeft.mono (hleft : FieldsLeft P around names n r) (hnodup : names.Nodup)
    (h : ∀ {step a c y}, step.field ∈ names → n.step? step = some c →
      (spotOf a).body = isBodyField n.kind step.field → P a c y → Q a c y) :
    FieldsLeft Q around names n r := by
  induction hleft with
  | nil => exact .nil
  | absent hget _ ih =>
      exact .absent hget (ih (List.nodup_cons.mp hnodup).2 fun hfield => h (List.mem_cons_of_mem _ hfield))
  | @field name names old new n r hget hcontent _ ih =>
      obtain ⟨hfresh, hnodup⟩ := List.nodup_cons.mp hnodup
      have hnew : ContentLeft Q around n name old new := by
        apply hcontent.mono hget
        intro index a c y hstep hbody hy
        exact h (List.mem_cons_self ..) hstep hbody hy
      refine .field hget hnew (ih hnodup ?_)
      intro step a c y hfield hstep hbody hy
      -- A field that is still to be swept is not the one that was written.
      have hne : step.field ≠ name := fun heq => hfresh (heq ▸ hfield)
      rw [step?_congr (get?_set_of_ne hne)] at hstep
      exact h (List.mem_cons_of_mem _ hfield) hstep hbody hy

theorem Turn.mono (hturn : Turn P around n x) (h : ∀ {a c y}, P a c y → Q a c y) : Turn Q around n x := by
  cases hturn with
  | folded hfolded => exact .folded hfolded
  | dropped hprologue hdirective => exact .dropped hprologue hdirective
  | swept hfolded hkept hfields =>
      exact .swept hfolded hkept (hfields.mono (nodup_fields _) fun _ _ _ => h)

theorem listed_of_prologue (h : (spotOf around).prologue = true) : (spotOf around).listed = true := by
  cases around with
  | nil => cases h
  | cons f around =>
      have hprologue : f.step.index.any _ = true := h
      show f.step.index.isSome = true
      cases hindex : f.step.index with
      | none =>
          rw [hindex] at hprologue
          cases hprologue
      | some i => rfl

/-- A node that stands in no list stays in its slot. -/
theorem Turn.keep (h : Turn P around n x) (hlisted : (spotOf around).listed = false) : x.1 = .keep := by
  cases h with
  | folded _ => rfl
  | dropped hprologue _ =>
      rw [listed_of_prologue hprologue] at hlisted
      cases hlisted
  | swept _ _ _ =>
      rw [hlisted]
      exact settleBy_unlisted _

/-! ## The sweep goes by turns -/

/-- One level below, the sweep makes something of every node, as `P` allows. -/
def SweepsBelow (P : Surroundings → Node → Settled × Node → Prop) (levels : Nat)
    (below : Surroundings → Walk Unit Settled) : Prop :=
  ∀ {around : Surroundings} {n : Node}, around.Open → around ≠ [] → n.size ≤ levels →
    ∃ x : Settled × Node, below around (n, ()) = .ok x.1 (x.2, ()) ∧ P around n x ∧
      ((spotOf around).listed = false → x.1 = .keep)

variable {levels : Nat} {below : Surroundings → Walk Unit Settled}

/-- A list is swept from left to right. Each child sees the slots before it as they were left. -/
theorem sweep_slots (hbelow : SweepsBelow P levels below) (ho : around.Open) (hname : name ∈ n.kind.fields)
    (hrest : ∀ c, some c ∈ rest → c.size ≤ levels) :
    ∃ pieces left, Sweep.slots below around n name done rest () = .ok pieces (left, ()) ∧
      SlotsLeft P around n name ((spotOf around).opensBody n.kind && done.all isDirectiveSlot) done rest
        pieces.flatten := by
  induction rest generalizing done with
  | nil => exact ⟨[], done, rfl, .nil⟩
  | cons slot rest ih =>
      have htail : ∀ c, some c ∈ rest → c.size ≤ levels := fun c hc => hrest c (List.mem_cons_of_mem _ hc)
      cases slot with
      | none =>
          obtain ⟨pieces, left, hslots, hpieces⟩ := ih htail
          refine ⟨[none] :: pieces, left, ?_, .hole ?_⟩
          · rw [Sweep.slots, hslots]
            rfl
          · simpa [isDirectiveSlot] using hpieces
      | some c =>
          have hopen : Surroundings.Open (slotFrame n name done rest :: around) :=
            .cons (Sweep.open_slot n c name done rest) ho
          obtain ⟨x, hchild, hx, _⟩ := hbelow hopen (by simp) (hrest c (List.mem_cons_self ..))
          obtain ⟨pieces, left, hslots, hpieces⟩ := ih htail
          refine ⟨x.1.slots (some x.2) :: pieces, left, ?_, .node (spotOf_slot hname hopen) hx ?_⟩
          · rw [Sweep.slots, hchild]
            dsimp only
            rw [hslots, Sweep.piece_eq]
            rfl
          · simpa [isDirectiveSlot, Bool.and_assoc] using hpieces

/-- A field that was not swept yet. -/
theorem sweep_field (hbelow : SweepsBelow P levels below) (ho : around.Open) (hname : name ∈ n.kind.fields)
    (hget : n.get? name = some old) (hsize : sizeOfField old ≤ levels) :
    ∃ new, Sweep.field below around name (n, ()) = .ok () (n.set name new, ()) ∧
      ContentLeft P around n name old new := by
  unfold Sweep.field
  dsimp only
  rw [hget]
  cases old with
  | value json =>
      refine ⟨.value json, ?_, .value json⟩
      rw [set_eq_self hget]
  | child c =>
      have hopen : Surroundings.Open (fieldFrame n name :: around) := .cons (Sweep.open_child hget) ho
      obtain ⟨⟨settled, m⟩, hchild, hm, hkeep⟩ := hbelow hopen (by simp) hsize
      cases hkeep rfl
      refine ⟨.child m, ?_, .child hm⟩
      simp only [Sweep.child, hchild]
  | list slots =>
      have hslots : ∀ c, some c ∈ slots → c.size ≤ levels :=
        fun c hc => Nat.le_trans (size_le_of_mem_slots hc) hsize
      obtain ⟨pieces, left, hswept, hleft⟩ := sweep_slots hbelow ho hname hslots
      rw [List.all_nil, Bool.and_true] at hleft
      refine ⟨.list pieces.flatten, ?_, .list hleft⟩
      simp only [Sweep.list, hswept]

theorem sweep_fields (hbelow : SweepsBelow P levels below) (ho : around.Open)
    (hsize : n.size ≤ levels + 1) :
    ∃ r, Sweep.fields below around (n, ()) = .ok () (r, ()) ∧ FieldsLeft P around n.kind.fields n r := by
  -- The fields that are still to be swept are as they were in the node.
  have hall : ∀ names : List String, names.Nodup → names ⊆ n.kind.fields → ∀ copy : Node,
      copy.kind = n.kind → (∀ name ∈ names, copy.get? name = n.get? name) →
      ∃ r, names.forM (Sweep.field below around) (copy, ()) = .ok () (r, ()) ∧
        FieldsLeft P around names copy r := by
    intro names
    induction names with
    | nil => exact fun _ _ copy _ _ => ⟨copy, rfl, .nil⟩
    | cons name names ih =>
        intro hnodup hnames copy hkind hget
        obtain ⟨hfresh, hnodup⟩ := List.nodup_cons.mp hnodup
        have hname := hnames (List.mem_cons_self ..)
        have hrest : names ⊆ n.kind.fields := fun other h => hnames (List.mem_cons_of_mem _ h)
        have hgetRest : ∀ other ∈ names, copy.get? other = n.get? other :=
          fun other h => hget other (List.mem_cons_of_mem _ h)
        cases hcontent : copy.get? name with
        | none =>
            obtain ⟨r, hr, hleft⟩ := ih hnodup hrest copy hkind hgetRest
            refine ⟨r, ?_, .absent hcontent hleft⟩
            show EStateM.bind (Sweep.field below around name) _ _ = _
            simp only [EStateM.bind, Sweep.field, hcontent]
            exact hr
        | some old =>
            have hold : n.get? name = some old := by rw [← hget name (List.mem_cons_self ..), hcontent]
            have hlt := sizeOfField_lt_of_get? hold
            obtain ⟨new, hfield, hnew⟩ := sweep_field hbelow ho (hkind ▸ hname) hcontent (by omega)
            have hgetSet : ∀ other ∈ names, (copy.set name new).get? other = n.get? other := by
              intro other hother
              have hne : other ≠ name := fun heq => hfresh (heq ▸ hother)
              rw [get?_set_of_ne hne]
              exact hgetRest other hother
            obtain ⟨r, hr, hleft⟩ := ih hnodup hrest (copy.set name new) hkind hgetSet
            refine ⟨r, ?_, .field hcontent hnew hleft⟩
            show EStateM.bind (Sweep.field below around name) _ _ = _
            simp only [EStateM.bind, hfield]
            exact hr
  exact hall _ (nodup_fields n.kind) (fun _ h => h) n rfl fun _ _ => rfl

theorem FieldsLeft.kind_eq (h : FieldsLeft P around names n r) : r.kind = n.kind := by
  induction h with
  | nil => rfl
  | absent _ _ ih => exact ih
  | field _ _ _ ih => exact ih

theorem sweep_node (hbelow : SweepsBelow P levels (Sweep.node optimizer levels)) (ho : around.Open)
    (hroot : around ≠ [] ∨ foldedBy (valueIn? around) n = none ∧ n.kind ≠ .ifStatement)
    (hsize : n.size ≤ levels + 1) :
    ∃ x : Settled × Node, Sweep.node optimizer (levels + 1) around (n, ()) = .ok x.1 (x.2, ()) ∧
      Turn P around n x := by
  show ∃ x : Settled × Node, EStateM.bind (Sweep.act around optimizer.enter) _ _ = _ ∧ _
  simp only [EStateM.bind, act_enter (hroot.imp_right And.left)]
  unfold metBy
  cases hfolded : foldedBy (valueIn? around) n with
  | some m => exact ⟨(.keep, m), rfl, .folded hfolded⟩
  | none =>
      dsimp only
      split
      · rename_i hdropped
        obtain ⟨hprologue, hdirective⟩ := Bool.and_eq_true_iff.mp hdropped
        exact ⟨(.remove, n), rfl, .dropped hprologue (beq_iff_eq.mp hdirective)⟩
      · rename_i hkept
        have hshort : (shorten n).size ≤ levels + 1 := by rw [size_shorten]; exact hsize
        obtain ⟨r, hfields, hleft⟩ := sweep_fields hbelow ho hshort
        have hkind : r.kind = n.kind := by rw [hleft.kind_eq, kind_shorten]
        rw [kind_shorten] at hleft
        refine ⟨_, ?_, .swept hfolded (by simpa using hkept) hleft⟩
        show EStateM.bind (Sweep.fields _ around) _ _ = _
        simp only [EStateM.bind, hfields]
        rw [← hkind] at hroot ⊢
        exact leave_eq (hroot.imp_right And.right)

/-! ## What the optimizer makes -/

/-- What the optimizer makes of the node in a slot, within so many levels. -/
structure MakesWithin (levels : Nat) (around : Surroundings) (n : Node) (x : Settled × Node) : Prop where
  isOpen : around.Open
  inside : around ≠ [] ∨ n.kind = .program
  size_le : n.size ≤ levels
  sweep_eq : Sweep.node optimizer levels around (n, ()) = .ok x.1 (x.2, ())

/-- Of the node in a slot the optimizer makes another, and the slot fares as told. -/
def Makes (around : Surroundings) (n : Node) (x : Settled × Node) : Prop :=
  ∃ levels, MakesWithin levels around n x

theorem exists_turn (hbelow : SweepsBelow (MakesWithin levels) levels (Sweep.node optimizer levels))
    (ho : around.Open) (hroot : around ≠ [] ∨ n.kind = .program) (hsize : n.size ≤ levels + 1) :
    ∃ x, MakesWithin (levels + 1) around n x ∧ Turn (MakesWithin levels) around n x := by
  have hprogram : n.kind = .program → foldedBy (valueIn? around) n = none ∧ n.kind ≠ .ifStatement := by
    intro hkind
    rw [foldedBy_of_not_isOperator _ (by rw [hkind]; rfl), hkind]
    exact ⟨rfl, by decide⟩
  obtain ⟨x, hsweep, hturn⟩ := sweep_node hbelow ho (hroot.imp_right hprogram) hsize
  exact ⟨x, ⟨ho, hroot, hsize, hsweep⟩, hturn⟩

theorem sweepsBelow (levels : Nat) :
    SweepsBelow (MakesWithin levels) levels (Sweep.node optimizer levels) := by
  induction levels with
  | zero =>
      intro around n _ _ hsize
      exact absurd (size_pos n) (by omega)
  | succ levels ih =>
      intro around n ho hinside hsize
      obtain ⟨x, hx, hturn⟩ := exists_turn ih ho (.inl hinside) hsize
      exact ⟨x, hx.sweep_eq, hx, hturn.keep⟩

/-- The sweep is a function, so what is made of a node is made by a turn. -/
theorem MakesWithin.turn (h : MakesWithin (levels + 1) around n x) :
    Turn (MakesWithin levels) around n x := by
  obtain ⟨y, hy, hturn⟩ := exists_turn (sweepsBelow levels) h.isOpen h.inside h.size_le
  have hsame := h.sweep_eq.symm.trans hy.sweep_eq
  injection hsame with hfate hrest
  injection hrest with hnode _
  rwa [show x = y from Prod.ext hfate hnode]

/-- **The optimizer makes something of every node**, but for a root that is no program. -/
theorem exists_makes (ho : around.Open) (hroot : around ≠ [] ∨ n.kind = .program) :
    ∃ x, MakesWithin n.size around n x := by
  obtain ⟨levels, hlevels⟩ : ∃ levels, n.size = levels + 1 := ⟨n.size - 1, by have := size_pos n; omega⟩
  rw [hlevels]
  obtain ⟨x, hx, _⟩ := exists_turn (sweepsBelow levels) ho hroot hlevels.le
  exact ⟨x, hx⟩

/-- **Induction on what the optimizer does.** -/
theorem Makes.induction
    (turn : ∀ {around n x}, around.Open → Turn (fun a c y => Makes a c y ∧ P a c y) around n x →
      P around n x)
    (h : Makes around n x) : P around n x := by
  obtain ⟨levels, h⟩ := h
  induction levels generalizing around n x with
  | zero => exact absurd h.size_le (by have := size_pos n; omega)
  | succ levels ih =>
      apply turn h.isOpen
      exact h.turn.mono fun hy => ⟨⟨levels, hy⟩, ih hy⟩

theorem Makes.turn (h : Makes around n x) : Turn Makes around n x :=
  Makes.induction (P := Turn Makes) (fun _ hturn => hturn.mono fun hy => hy.1) h

/-- The optimizer makes of a program what it makes of the root. -/
theorem exists_optimize (hkind : n.kind = .program) : ∃ x, Makes [] n x ∧ optimize n = .ok x.2 := by
  have hopen : Surroundings.Open [] := fun _ hf => nomatch hf
  obtain ⟨x, hx⟩ := exists_makes hopen (.inr hkind)
  refine ⟨x, ⟨_, hx⟩, ?_⟩
  unfold optimize
  rw [Sweep.run_eq]
  unfold Visitor.sweep
  rw [hx.sweep_eq]
  rfl

/-! ## What the fields are left with -/

theorem FieldsLeft.get?_of_not_mem (h : FieldsLeft P around names n r) (hname : name ∉ names) :
    r.get? name = n.get? name := by
  induction h with
  | nil => rfl
  | absent _ _ ih => exact ih fun hmem => hname (List.mem_cons_of_mem _ hmem)
  | @field other names old new n r _ _ _ ih =>
      have hne : name ≠ other := fun heq => hname (heq ▸ List.mem_cons_self ..)
      rw [ih fun hmem => hname (List.mem_cons_of_mem _ hmem), get?_set_of_ne hne]

/-- A field that was swept is not written again. -/
theorem FieldsLeft.get? (h : FieldsLeft P around names n r) (hnodup : names.Nodup) (hname : name ∈ names) :
    (n.get? name = none ∧ r.get? name = none) ∨
      ∃ copy old new, copy.kind = n.kind ∧ n.get? name = some old ∧ r.get? name = some new ∧
        ContentLeft P around copy name old new := by
  induction h with
  | nil => cases hname
  | @absent other names n r hget hrest ih =>
      obtain ⟨hfresh, hnodup⟩ := List.nodup_cons.mp hnodup
      rcases List.mem_cons.mp hname with rfl | hname
      · exact .inl ⟨hget, (hrest.get?_of_not_mem hfresh).trans hget⟩
      · exact ih hnodup hname
  | @field other names old new n r hget hnew hrest ih =>
      obtain ⟨hfresh, hnodup⟩ := List.nodup_cons.mp hnodup
      rcases List.mem_cons.mp hname with rfl | hname
      · have hr : r.get? name = some new := by rw [hrest.get?_of_not_mem hfresh, get?_set_self]
        exact .inr ⟨n, old, new, rfl, hget, hr, hnew⟩
      · have hne : name ≠ other := fun heq => hfresh (heq ▸ hname)
        have hfield := ih hnodup hname
        rw [get?_set_of_ne hne] at hfield
        exact hfield

/-- A child becomes what is made of it. -/
theorem FieldsLeft.child? (h : FieldsLeft P around names n r) (hnodup : names.Nodup)
    (hname : name ∈ names) :
    (n.child? name = none ∧ r.child? name = none) ∨
      ∃ c m a, n.child? name = some c ∧ r.child? name = some m ∧
        spotOf a = ⟨false, false, isBodyField n.kind name⟩ ∧ a.path = around.path ++ [⟨name, none⟩] ∧
        P a c (.keep, m) := by
  unfold Node.child?
  rcases h.get? hnodup hname with ⟨hn, hr⟩ | ⟨copy, old, new, hkind, hn, hr, hleft⟩
  · rw [hn, hr]
    exact .inl ⟨rfl, rfl⟩
  · rw [hn, hr]
    cases hleft with
    | value json => exact .inl ⟨rfl, rfl⟩
    | child hm => exact .inr ⟨_, _, _, rfl, rfl, hkind ▸ rfl, Surroundings.path_cons .., hm⟩
    | list hslots => exact .inl ⟨rfl, rfl⟩

/-- A list becomes the pieces in a row. -/
theorem FieldsLeft.slots? (h : FieldsLeft P around names n r) (hnodup : names.Nodup)
    (hname : name ∈ names) :
    (n.slots? name = none ∧ r.slots? name = none) ∨
      ∃ slots pieces copy, n.slots? name = some slots ∧ r.slots? name = some pieces ∧ copy.kind = n.kind ∧
        SlotsLeft P around copy name ((spotOf around).opensBody n.kind) [] slots pieces := by
  unfold Node.slots?
  rcases h.get? hnodup hname with ⟨hn, hr⟩ | ⟨copy, old, new, hkind, hn, hr, hleft⟩
  · rw [hn, hr]
    exact .inl ⟨rfl, rfl⟩
  · rw [hn, hr]
    cases hleft with
    | value json => exact .inl ⟨rfl, rfl⟩
    | child hm => exact .inl ⟨rfl, rfl⟩
    | list hslots => exact .inr ⟨_, _, copy, rfl, rfl, hkind, hkind ▸ hslots⟩

end Optimize

end Minifier
