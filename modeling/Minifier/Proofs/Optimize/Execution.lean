import Minifier.Proofs.Optimize.Evaluation
import Minifier.Proofs.Optimize.Simulation

/-!
# What a program executes

`run` goes through statements as far as that is known without executing them: it enters blocks and the
taken branches of `if`s with constant tests, stops at a `return`, and emits every other statement that
may do something. The optimizer keeps the run of a program: it executes the same statements, each
optimized as it is by itself (`optimize_keeps_run`).
-/

namespace Minifier.Optimize

open Node

/-! ## Runs -/

/-- The statements that are executed, and whether the last of them returned. -/
structure Run where
  emitted : List Node
  returned : Bool

namespace Run

/-- Nothing is executed. -/
def nothing : Run := ⟨[], false⟩

/-- One statement is executed. -/
def emit (n : Node) : Run := ⟨[n], false⟩

/-- One run and, unless it returned, another. -/
def andThen (r next : Run) : Run :=
  if r.returned then r else ⟨r.emitted ++ next.emitted, next.returned⟩

theorem andThen_nothing (r : Run) : r.andThen nothing = r := by
  obtain ⟨emitted, returned⟩ := r
  cases returned with
  | true => rfl
  | false => exact congrArg (Run.mk · false) (List.append_nil emitted)

theorem andThen_assoc (r next last : Run) :
    (r.andThen next).andThen last = r.andThen (next.andThen last) := by
  obtain ⟨emitted, returned⟩ := r
  obtain ⟨emitted', returned'⟩ := next
  cases returned <;> cases returned' <;> simp [andThen]

end Run

theorem size_branch_lt {n statement : Node} {test : Bool}
    (h : (branches n test).1 = some statement) : statement.size < n.size := by
  cases test <;> exact size_child_lt h

/-- What a statement executes. -/
def run (n : Node) : Run :=
  match n.kind with
  | .returnStatement => ⟨[n], true⟩
  | .blockStatement =>
    ((n.children "body").attach.map fun ⟨c, _⟩ => run c).foldr Run.andThen .nothing
  | .ifStatement =>
    match (n.child? "test").bind constant? with
    | none => .emit n
    | some test =>
      match _h : (branches n test.truthy).1 with
      | some statement => run statement
      | none => .nothing
  | .emptyStatement | .functionDeclaration => .nothing
  | .expressionStatement =>
    if ((n.child? "expression").bind constant?).isSome then .nothing else .emit n
  | _ => .emit n
termination_by n.size
decreasing_by
  · exact size_children_lt ‹_›
  · exact size_branch_lt ‹_›

/-- What statements execute, one after the other. -/
def runAll (statements : List Node) : Run := (statements.map run).foldr Run.andThen .nothing

theorem run_eq (n : Node) :
    run n =
      match n.kind with
      | .returnStatement => ⟨[n], true⟩
      | .blockStatement => runAll (n.children "body")
      | .ifStatement =>
        match (n.child? "test").bind constant? with
        | none => .emit n
        | some test => ((branches n test.truthy).1.map run).getD .nothing
      | .emptyStatement | .functionDeclaration => .nothing
      | .expressionStatement =>
        if ((n.child? "expression").bind constant?).isSome then .nothing else .emit n
      | _ => .emit n := by
  rw [run]
  cases n.kind with
  | blockStatement =>
      show List.foldr Run.andThen .nothing _ = runAll (n.children "body")
      unfold runAll
      congr 1
      exact List.attach_map_val ..
  | ifStatement =>
      dsimp only
      split
      · rfl
      · split <;> simp [*]
  | _ => rfl

variable {n m : Node} {place : Place}

theorem runAll_cons (c : Node) (rest : List Node) : runAll (c :: rest) = (run c).andThen (runAll rest) :=
  rfl

theorem runAll_singleton (c : Node) : runAll [c] = run c := Run.andThen_nothing (run c)

theorem runAll_append (l l' : List Node) : runAll (l ++ l') = (runAll l).andThen (runAll l') := by
  induction l with
  | nil => rfl
  | cons c l ih => rw [List.cons_append, runAll_cons, runAll_cons, ih, Run.andThen_assoc]

/-- What follows a return is not executed. -/
theorem runAll_pruneStatements (slots : List (Option Node)) :
    runAll ((pruneStatements slots).filterMap id) = runAll (slots.filterMap id) := by
  induction slots with
  | nil => rfl
  | cons slot rest ih =>
      rw [pruneStatements]
      cases slot with
      | none => exact ih
      | some c =>
          split
          · rename_i hreturn
            have hkind : c.kind = .returnStatement := beq_iff_eq.mp hreturn
            have hrun : run c = ⟨[c], true⟩ := by rw [run_eq, hkind]
            show runAll (c :: _) = runAll (c :: _)
            rw [runAll_cons, runAll_cons, hrun]
            rfl
          · show runAll (c :: _) = runAll (c :: _)
            rw [runAll_cons, runAll_cons, ih]

/-! ## Runs of reduced statements -/

/-- The spot of the only statement of a program. -/
def lone : Spot := ⟨true, true, false⟩

/-- The second run executes what becomes of the statements of the first. -/
structure Matches (r r' : Run) : Prop where
  returned : r'.returned = r.returned
  emitted : r.emitted.map (reduce lone) = r'.emitted.map fun m => (.keep, m)
  placed : ∀ n ∈ r.emitted, placed .plain n = true

theorem Matches.nothing : Matches .nothing .nothing := ⟨rfl, rfl, fun _ h => nomatch h⟩

theorem Matches.single (hn : Optimize.placed .plain n = true) (h : reduce lone n = (.keep, m))
    (returned : Bool) : Matches ⟨[n], returned⟩ ⟨[m], returned⟩ := by
  refine ⟨rfl, ?_, ?_⟩
  · rw [List.map_singleton, List.map_singleton, h]
  · intro c hc
    rw [List.mem_singleton.mp hc]
    exact hn

theorem Matches.andThen {r r' next next' : Run} (h : Matches r r') (hnext : Matches next next') :
    Matches (r.andThen next) (r'.andThen next') := by
  unfold Run.andThen
  rw [h.returned]
  split
  · exact h
  · refine ⟨hnext.returned, ?_, ?_⟩
    · show (r.emitted ++ next.emitted).map _ = (r'.emitted ++ next'.emitted).map _
      rw [List.map_append, List.map_append, h.emitted, hnext.emitted]
    · intro c hc
      rcases List.mem_append.mp hc with hc | hc
      · exact h.placed c hc
      · exact hnext.placed c hc

/-- The nodes that stand in the place of a reduced one. -/
def remains (r : Settled × Node) : List Node := (r.1.slots (some r.2)).filterMap id

theorem remains_keep (m : Node) : remains (.keep, m) = [m] := rfl

theorem remains_of_keep {r : Settled × Node} (h : r.1 = .keep) : remains r = [r.2] := by
  obtain ⟨settled, node⟩ := r
  cases h
  rfl

theorem remains_remove (m : Node) : remains (.remove, m) = [] := rfl

theorem remains_flatten (nodes : List Node) (m : Node) : remains (.flatten nodes, m) = nodes := by
  show (nodes.map some).filterMap id = nodes
  rw [List.filterMap_map]
  exact List.filterMap_some ..

theorem matches_reduceSlots {slots : List (Option Node)}
    (h : ∀ c s, some c ∈ slots → Matches (run c) (runAll (remains (reduce s c)))) (body prologue : Bool) :
    Matches (runAll (slots.filterMap id))
      (runAll ((reduceSlots reduce body prologue slots).filterMap id)) := by
  induction slots generalizing prologue with
  | nil => exact .nothing
  | cons slot rest ih =>
      have hrest := ih fun c s hc => h c s (List.mem_cons_of_mem _ hc)
      cases slot with
      | none => exact hrest false
      | some c =>
          rw [reduceSlots, List.filterMap_append, runAll_append]
          exact (h c _ (List.mem_cons_self ..)).andThen (hrest _)

theorem matches_children (hbody : "body" ∈ n.kind.fields)
    (h : ∀ c ∈ n.children "body", ∀ s, Matches (run c) (runAll (remains (reduce s c)))) (s : Spot) :
    Matches (runAll (n.children "body")) (runAll ((reduceFields reduce s n).children "body")) := by
  unfold Node.children at h ⊢
  rw [slots?_reduceFields hbody]
  cases hslots : n.slots? "body" with
  | none => exact .nothing
  | some slots =>
      rw [hslots] at h
      apply matches_reduceSlots
      intro c s hc
      exact h c (List.mem_filterMap.mpr ⟨some c, hc, rfl⟩) s

/-! ### Leaving a statement -/

theorem run_prune (hkind : n.kind = .blockStatement) : run (prune n) = run n := by
  rw [run_eq, run_eq, kind_prune, hkind]
  show runAll _ = runAll _
  unfold prune
  cases hslots : n.slots? "body" with
  | none => rfl
  | some slots =>
      have hset : (n.set "body" (.list (pruneStatements slots))).slots? "body"
          = some (pruneStatements slots) := slots?_eq_some_iff.mpr (get?_set_self ..)
      unfold Node.children
      rw [hset, hslots]
      exact runAll_pruneStatements slots

theorem runAll_settleIf (hkind : n.kind = .ifStatement) (listed : Bool) :
    runAll (remains (settleIf listed n)) = run n := by
  unfold settleIf
  cases htest : (n.child? "test").bind constant? with
  | none => exact runAll_singleton n
  | some test =>
      have hrun : run n = ((branches n test.truthy).1.map run).getD .nothing := by
        rw [run_eq, hkind, htest]
      dsimp only
      split
      · exact runAll_singleton n
      · rw [hrun]
        cases (branches n test.truthy).1 with
        | none =>
            cases listed with
            | true => rfl
            | false =>
                show runAll [⟨.emptyStatement, []⟩] = _
                rw [runAll_singleton, run_eq]
                rfl
        | some statement =>
            dsimp only
            split
            · rename_i hblock
              simp only [Bool.and_eq_true, beq_iff_eq] at hblock
              rw [remains_flatten, Option.map_some, Option.getD_some, run_eq, hblock.2.1]
            · exact runAll_singleton statement

/-- What is done on leaving a statement keeps its run. -/
theorem runAll_settle (n : Node) (listed : Bool) : runAll (remains (settle listed n)) = run n := by
  unfold settle
  split
  · rename_i hkind
    exact runAll_settleIf hkind listed
  · rename_i hkind
    rw [remains_keep, runAll_singleton, run_prune hkind]
  · rw [remains_keep, runAll_singleton]

/-! ### Operators -/

theorem run_of_isOperator (h : n.kind.isOperator = true) : run n = .emit n := by
  rw [run_eq]
  unfold Kind.isOperator at h
  split at h
  · rename_i hkind
    rw [hkind]
  · rename_i hkind
    rw [hkind]
  · rename_i hkind
    rw [hkind]
  · cases h

theorem run_ofValue {v : Value} (h : v.isPrimitive = true) :
    run (Expression.ofValue v) = .emit (Expression.ofValue v) := by
  have hmagnitude : ∀ x, run (Expression.ofMagnitude x) = .emit (Expression.ofMagnitude x) := by
    intro x
    unfold Expression.ofMagnitude
    split <;> rw [run_eq] <;> rfl
  cases v with
  | number x =>
      show run (Expression.ofNumber x) = .emit (Expression.ofNumber x)
      unfold Expression.ofNumber
      split
      · rw [run_eq]
        rfl
      · split
        · rw [run_eq]
          rfl
        · exact hmagnitude x
  | array items => cases h
  | object entries => cases h
  | _ =>
      rw [run_eq]
      rfl

theorem matches_folded (hn : Optimize.placed .plain n = true) (h : folded? n = some m) :
    Matches (run n) (run m) := by
  obtain ⟨hkind, v, hv, rfl⟩ := folded?_eq_some h
  rw [run_of_isOperator hkind, run_ofValue (isPrimitive_of_evaluate? hv)]
  apply Matches.single hn
  rw [reduce_eq, h]

/-! ### Directives and expressions -/

theorem directive?_ne_some (h : n.kind ≠ .expressionStatement) (text : String) :
    directive? n ≠ some text := by
  rw [directive?_of_ne h]
  exact (Option.some_ne_none text).symm

/-- A directive that may stand there has a value. -/
theorem isSome_constant?_of_useStrict (hn : placed place n = true)
    (h : directive? n = some "use strict") : ((n.child? "expression").bind constant?).isSome = true := by
  obtain ⟨hkind, e, he, hliteral, htext⟩ := directive?_eq_some h
  have hplaced : Optimize.placed .discarded e = true := stands_child hn he (by rw [hkind]; rfl)
  have hallows := (stands_iff.mp hplaced).1
  have hplain : (e.has "regex" || e.has "bigint") = false := by
    simp only [Place.allows, isValuelessDirective, hliteral, htext] at hallows
    simpa using hallows
  have hvalue : e.value? "value" = some (.string "use strict") := by
    unfold value?
    rw [text?_eq_some_iff.mp htext]
    rfl
  have hconstant : constant? e = some (.string "use strict") := by
    rw [constant?_eq]
    unfold valueFrom?
    rw [hliteral]
    show literalValue? e = _
    unfold literalValue?
    rw [hplain, hvalue]
    rfl
  rw [he, Option.bind_some, hconstant]
  rfl

theorem run_of_useStrict (hn : placed place n = true) (h : directive? n = some "use strict") :
    run n = .nothing := by
  rw [run_eq, (directive?_eq_some h).1]
  exact if_pos (isSome_constant?_of_useStrict hn h)

/-- An operator on one operand has a value if the operand has one. -/
theorem isSome_constant?_unary {text : String} {operator : UnaryOperator}
    (hkind : n.kind = .unaryExpression) (htext : n.text? "operator" = some text)
    (hoperator : UnaryOperator.ofText? text = some operator) :
    (constant? n).isSome = ((n.child? "argument").bind constant?).isSome := by
  rw [constant?_eq]
  unfold valueFrom?
  rw [hkind]
  show (((n.text? "operator").bind UnaryOperator.ofText?).bind fun operator =>
    ((n.child? "argument").bind constant?).bind fun operand => Value.unary? operator operand).isSome = _
  rw [htext, Option.bind_some, hoperator, Option.bind_some]
  cases hargument : (n.child? "argument").bind constant? with
  | none => rfl
  | some v =>
      obtain ⟨argument, _, hv⟩ := Option.bind_eq_some_iff.mp hargument
      rw [Option.bind_some]
      unfold Value.unary?
      rw [isPrimitive_of_evaluate? hv]
      rfl

/-- `!e` has a value iff `void e` has one. -/
theorem isSome_constant?_shorten (hkind : n.kind = .expressionStatement) :
    (((shorten n).child? "expression").bind constant?).isSome
      = ((n.child? "expression").bind constant?).isSome := by
  by_cases hvoid : discardsVoid n = true
  · obtain ⟨e, he, hunary, hoperator⟩ := discardsVoid_iff.mp hvoid
    let negated := e.setValue "operator" (.string "!")
    have hchild : (n.set "expression" (.child negated)).child? "expression" = some negated :=
      child?_eq_some_iff.mpr (get?_set_self ..)
    have hargument : negated.child? "argument" = e.child? "argument" := by
      unfold child?
      rw [show negated.get? "argument" = e.get? "argument" from get?_set_of_ne (by decide)]
    have hbefore : (constant? e).isSome = ((e.child? "argument").bind constant?).isSome :=
      isSome_constant?_unary hunary (text?_eq_some_iff.mpr hoperator) rfl
    have hafter : (constant? negated).isSome = ((negated.child? "argument").bind constant?).isSome :=
      isSome_constant?_unary hunary (text?_eq_some_iff.mpr (get?_set_self ..)) rfl
    rw [shorten_of_discardsVoid hkind he hvoid, hchild, he, Option.bind_some, Option.bind_some,
      hbefore, hafter, hargument]
  · rw [shorten_eq_self fun h => hvoid h.2]

/-- No `if` stands as the expression of a statement, also with `!` for `void`. -/
theorem ne_if_of_shorten (hn : placed place n = true) (hkind : n.kind = .expressionStatement) {e : Node}
    (he : (shorten n).child? "expression" = some e) : e.kind ≠ .ifStatement := by
  by_cases hvoid : discardsVoid n = true
  · obtain ⟨old, hold, hunary, _⟩ := discardsVoid_iff.mp hvoid
    rw [shorten_of_discardsVoid hkind hold hvoid] at he
    have hwritten := (child?_eq_some_iff.mp he).symm.trans (get?_set_self ..)
    cases hwritten
    show old.kind ≠ .ifStatement
    rw [hunary]
    decide
  · rw [shorten_eq_self fun h => hvoid h.2] at he
    have hplaced : Optimize.placed .discarded e = true := stands_child hn he (by rw [hkind]; rfl)
    exact ne_if_of_allows (by decide) (seated_of_placed hplaced)

theorem isSome_constant?_expression (hn : placed place n = true) (hkind : n.kind = .expressionStatement)
    (s : Spot) :
    (((reduceFields reduce s (shorten n)).child? "expression").bind constant?).isSome
      = ((n.child? "expression").bind constant?).isSome := by
  have hfield : "expression" ∈ (shorten n).kind.fields := by
    rw [kind_shorten, hkind]
    decide
  rw [child?_reduceFields hfield, ← isSome_constant?_shorten hkind]
  cases hchild : (shorten n).child? "expression" with
  | none => rfl
  | some e =>
      have he : seated .plain e = true :=
        stands_child (seated_shorten (seated_of_placed hn)) hchild (by rw [kind_shorten, hkind]; rfl)
      rw [Option.map_some, Option.bind_some, Option.bind_some,
        constant?_reduce he (ne_if_of_shorten hn hkind hchild)]

/-! ### Branches -/

/-- The test keeps its value. -/
theorem constant?_test (hn : placed place n = true) (hkind : n.kind = .ifStatement) (s : Spot) :
    ((reduceFields reduce s n).child? "test").bind constant? = (n.child? "test").bind constant? := by
  rw [child?_reduceFields (by rw [hkind]; decide)]
  cases hchild : n.child? "test" with
  | none => rfl
  | some test =>
      have htest : seated .operand test = true :=
        seated_of_placed (stands_child hn hchild (by rw [hkind]; rfl))
      exact constant?_reduce htest (ne_if_of_allows (by decide) htest) _

theorem placed_branch (hn : Optimize.placed .plain n = true) (hkind : n.kind = .ifStatement) {test : Bool}
    (hm : (branches n test).1 = some m) : Optimize.placed .plain m = true := by
  cases test with
  | true => exact stands_child hn hm (by rw [hkind]; rfl)
  | false => exact stands_child hn hm (by rw [hkind]; rfl)

theorem branches_reduceFields (hkind : n.kind = .ifStatement) (test : Bool) (s : Spot) :
    (branches (reduceFields reduce s n) test).1
      = (branches n test).1.map fun c => (reduce ⟨false, false, false⟩ c).2 := by
  have hbranch : ∀ name ∈ n.kind.fields, (reduceFields reduce s n).child? name
      = (n.child? name).map fun c => (reduce ⟨false, false, false⟩ c).2 := by
    intro name hname
    rw [child?_reduceFields hname, hkind]
    rfl
  cases test with
  | true => exact hbranch "consequent" (by rw [hkind]; decide)
  | false => exact hbranch "alternate" (by rw [hkind]; decide)

/-! ### All statements -/

/-- The tree around a node that is no block does not count for what is below it. -/
theorem reduceFields_spot (h : n.kind ≠ .blockStatement) (s t : Spot) :
    reduceFields reduce s n = reduceFields reduce t n := by
  have hopens : s.opensBody n.kind = t.opensBody n.kind := by
    unfold Spot.opensBody
    rw [beq_eq_false_iff_ne.mpr h]
    rfl
  have hfield : reduceField reduce s n = reduceField reduce t n := by
    funext copy name
    unfold reduceField
    cases n.get? name with
    | none => rfl
    | some content =>
        cases content with
        | list slots => simp only [reduceContent, hopens]
        | _ => rfl
  unfold reduceFields
  rw [hfield]

/-- A statement that nothing is left of but itself is executed reduced. -/
theorem matches_emitted (hn : Optimize.placed .plain n = true) (hfolded : folded? n = none)
    (hdirective : directive? n ≠ some "use strict") (hblock : n.kind ≠ .blockStatement)
    (hsettle : ∀ s, settle true (reduceFields reduce s (shorten n))
      = (.keep, reduceFields reduce s (shorten n))) (returned : Bool) (s : Spot) :
    Matches ⟨[n], returned⟩ ⟨[reduceFields reduce s (shorten n)], returned⟩ := by
  apply Matches.single hn
  have hspot : reduceFields reduce s (shorten n) = reduceFields reduce lone (shorten n) :=
    reduceFields_spot (by simpa using hblock) s lone
  have hremoved : ¬ (lone.prologue && directive? n == some "use strict") = true := by simp [hdirective]
  rw [reduce_eq, hfolded, hspot]
  dsimp only
  rw [if_neg hremoved]
  exact hsettle lone

theorem matches_expression (hn : Optimize.placed .plain n = true)
    (hkind : n.kind = .expressionStatement) (s : Spot) :
    Matches (run n) (run (reduceFields reduce s (shorten n))) := by
  have hreduced : ∀ s, (reduceFields reduce s (shorten n)).kind = .expressionStatement := by
    simp [hkind]
  have hsettle : ∀ s, settle true (reduceFields reduce s (shorten n))
      = (.keep, reduceFields reduce s (shorten n)) := fun s =>
    settle_of_other (by rw [hreduced]; decide) (by rw [hreduced]; decide) true
  rw [run_eq, run_eq, hkind, hreduced s]
  dsimp only
  rw [isSome_constant?_expression hn hkind s]
  split
  · exact .nothing
  · rename_i hvalue
    have hdirective : directive? n ≠ some "use strict" :=
      fun h => hvalue (isSome_constant?_of_useStrict hn h)
    exact matches_emitted hn (folded?_of_not_isOperator (by rw [hkind]; rfl)) hdirective
      (by rw [hkind]; decide) hsettle false s

section

variable (ih : ∀ c, c.size < n.size → Optimize.placed .plain c = true → ∀ s,
  Matches (run c) (runAll (remains (reduce s c))))
include ih

theorem matches_block (hn : Optimize.placed .plain n = true) (hkind : n.kind = .blockStatement)
    (s : Spot) : Matches (run n) (run (reduceFields reduce s n)) := by
  have hreduced : (reduceFields reduce s n).kind = .blockStatement := by rw [kind_reduceFields, hkind]
  rw [run_eq, run_eq, hkind, hreduced]
  apply matches_children (by rw [hkind]; decide)
  intro c hc
  exact ih c (size_children_lt hc) (stands_children hn hc (by rw [hkind]; rfl))

theorem matches_if (hn : Optimize.placed .plain n = true) (hkind : n.kind = .ifStatement)
    (s : Spot) : Matches (run n) (run (reduceFields reduce s n)) := by
  have hreduced : ∀ s, (reduceFields reduce s n).kind = .ifStatement := fun s => by
    rw [kind_reduceFields, hkind]
  have hshorten : shorten n = n := shorten_of_ne (by rw [hkind]; decide)
  rw [run_eq, run_eq, hkind, hreduced s]
  dsimp only
  rw [constant?_test hn hkind s]
  cases htest : (n.child? "test").bind constant? with
  | none =>
      have hsettle : ∀ s, settle true (reduceFields reduce s n) = (.keep, reduceFields reduce s n) := by
        intro s
        unfold settle
        rw [hreduced]
        show settleIf true _ = _
        unfold settleIf
        rw [constant?_test hn hkind s, htest]
      have hdirective : directive? n ≠ some "use strict" :=
        directive?_ne_some (by rw [hkind]; decide) "use strict"
      have hmatches := matches_emitted hn (folded?_of_not_isOperator (by rw [hkind]; rfl)) hdirective
        (by rw [hkind]; decide) (by rw [hshorten]; exact hsettle) false s
      rw [hshorten] at hmatches
      exact hmatches
  | some test =>
      dsimp only
      rw [branches_reduceFields hkind]
      cases htaken : (branches n test.truthy).1 with
      | none => exact .nothing
      | some c =>
          -- A branch stands in no list, so that it is reduced to one statement.
          have hmatches := ih c (size_branch_lt htaken) (placed_branch hn hkind htaken) ⟨false, false, false⟩
          have hkeep : (reduce ⟨false, false, false⟩ c).1 = .keep := reduce_unlisted rfl rfl c
          rw [remains_of_keep hkeep, runAll_singleton] at hmatches
          exact hmatches

/-- The fields of a statement are reduced. -/
theorem matches_reduceFields (hn : Optimize.placed .plain n = true) (hfolded : folded? n = none)
    (s : Spot) :
    Matches (run n) (run (reduceFields reduce s (shorten n))) := by
  have hreduced : ∀ s, (reduceFields reduce s (shorten n)).kind = n.kind := by simp
  -- Statements of most kinds are left as they are, and executed.
  have hother : n.kind ≠ .expressionStatement → n.kind ≠ .ifStatement → n.kind ≠ .blockStatement →
      ∀ returned, Matches ⟨[n], returned⟩ ⟨[reduceFields reduce s (shorten n)], returned⟩ := by
    intro hexpression hif hblock returned
    have hdirective := directive?_ne_some hexpression "use strict"
    refine matches_emitted hn hfolded hdirective hblock (fun s => ?_) returned s
    exact settle_of_other (by rw [hreduced]; exact hif) (by rw [hreduced]; exact hblock) true
  cases hkind : n.kind with
  | expressionStatement => exact matches_expression hn hkind s
  | blockStatement =>
      rw [shorten_of_ne (by rw [hkind]; decide)]
      exact matches_block ih hn hkind s
  | ifStatement =>
      rw [shorten_of_ne (by rw [hkind]; decide)]
      exact matches_if ih hn hkind s
  | emptyStatement =>
      rw [run_eq, run_eq, hreduced s, hkind]
      exact .nothing
  | functionDeclaration =>
      rw [run_eq, run_eq, hreduced s, hkind]
      exact .nothing
  | _ =>
      rw [run_eq, run_eq, hreduced s, hkind]
      exact hother (by rw [hkind]; exact Kind.noConfusion) (by rw [hkind]; exact Kind.noConfusion)
        (by rw [hkind]; exact Kind.noConfusion) _

end

/-- What remains of a statement executes what becomes of the statements that it executes. -/
theorem matches_reduce (hn : Optimize.placed .plain n = true) (s : Spot) :
    Matches (run n) (runAll (remains (reduce s n))) := by
  induction hsize : n.size using Nat.strongRecOn generalizing n s with
  | ind size ih =>
      rw [reduce_eq]
      cases hfolded : folded? n with
      | some constant =>
          rw [remains_keep, runAll_singleton]
          exact matches_folded hn hfolded
      | none =>
          dsimp only
          split
          · rename_i hremoved
            rw [Bool.and_eq_true, beq_iff_eq] at hremoved
            rw [run_of_useStrict hn hremoved.2, remains_remove]
            exact .nothing
          · rw [runAll_settle]
            refine matches_reduceFields ?_ hn hfolded s
            intro c hc hplaced t
            exact ih c.size (hsize ▸ hc) hplaced t rfl

/-! ## Whole programs -/

/-- The program of some statements. -/
def programOf (statements : List Node) : Node :=
  ⟨.program, [("body", .list (statements.map some))]⟩

theorem reduce_program (hkind : n.kind = .program) (s : Spot) :
    reduce s n = (.keep, reduceFields reduce s n) := by
  have hstatement : n.kind ≠ .expressionStatement := by rw [hkind]; decide
  have hreduced : (reduceFields reduce s n).kind = .program := by rw [kind_reduceFields, hkind]
  rw [reduce_eq, folded?_of_not_isOperator (by rw [hkind]; rfl), directive?_of_ne hstatement,
    shorten_of_ne hstatement, settle_of_other (by rw [hreduced]; decide) (by rw [hreduced]; decide)]
  simp

/-- A statement that is reduced to one is so by the optimizer. -/
theorem optimize_programOf (hn : seated .plain n = true) (h : reduce lone n = (.keep, m)) :
    optimize (programOf [n]) = .ok (programOf [m]) := by
  have hseated : seated .plain (programOf [n]) = true := by
    refine stands_iff.mpr ⟨rfl, ?_⟩
    intro entry hentry inner hseat
    cases List.mem_singleton.mp hentry
    cases (hseat : some Place.plain = some inner)
    refine standsSlots_iff.mpr fun c hc => ?_
    cases List.mem_singleton.mp hc
    exact hn
  have hslots : reduceSlots reduce false true [some n] = [some m] := by
    show (reduce lone n).1.slots (some (reduce lone n).2) ++ [] = _
    rw [h]
    rfl
  have hreduced : reduceFields reduce ⟨false, false, false⟩ (programOf [n])
      = ⟨.program, [("body", .list (reduceSlots reduce false true [some n]))]⟩ := rfl
  rw [optimize_eq_reduce rfl hseated, reduce_program rfl, hreduced, hslots]
  rfl

/-- The optimized program executes the statements that the program executes, each as the optimizer leaves
it by itself. -/
def RunKept (n : Node) : Prop :=
  ∃ m, optimize n = .ok m ∧
    (runAll (m.children "body")).returned = (runAll (n.children "body")).returned ∧
    (runAll (n.children "body")).emitted.map (fun s => optimize (programOf [s]))
      = (runAll (m.children "body")).emitted.map fun s => .ok (programOf [s])

theorem map_optimize {l l' : List Node} (hl : ∀ n ∈ l, placed .plain n = true)
    (h : l.map (reduce lone) = l'.map fun m => (.keep, m)) :
    l.map (fun s => optimize (programOf [s])) = l'.map fun s => .ok (programOf [s]) := by
  induction l generalizing l' with
  | nil =>
      cases l' with
      | nil => rfl
      | cons m l' => cases h
  | cons n l ih =>
      cases l' with
      | nil => cases h
      | cons m l' =>
          obtain ⟨hhead, htail⟩ := List.cons.inj h
          have hrest := ih (fun c hc => hl c (List.mem_cons_of_mem _ hc)) htail
          rw [List.map_cons, List.map_cons, hrest,
            optimize_programOf (seated_of_placed (hl n (List.mem_cons_self ..))) hhead]

/-- **The optimizer keeps what a program executes.** -/
theorem optimize_keeps_run (n : Node) (hkind : n.kind = .program) (hn : placed .plain n = true) :
    RunKept n := by
  have hmatches : Matches (runAll (n.children "body"))
      (runAll ((reduceFields reduce ⟨false, false, false⟩ n).children "body")) := by
    apply matches_children (by rw [hkind]; decide)
    intro c hc
    exact matches_reduce (stands_children hn hc (by rw [hkind]; rfl))
  refine ⟨_, optimize_eq_reduce hkind (seated_of_placed hn), ?_, ?_⟩
  · rw [reduce_program hkind]
    exact hmatches.returned
  · rw [reduce_program hkind]
    exact map_optimize hmatches.placed hmatches.emitted

/-! ### Programs to look at -/

/-- An expression as a statement. -/
def discarding (expression : Node) : Node := ⟨.expressionStatement, [("expression", .child expression)]⟩

/-- `undefined && true`. -/
def shortCircuit : Node :=
  ⟨.logicalExpression,
    [("operator", .value (.string "&&")), ("left", .child (Expression.identifier "undefined")),
     ("right", .child (Expression.literal (.bool true)))]⟩

/-- `f(undefined && true);` -/
def calling : Node :=
  discarding ⟨.callExpression,
    [("callee", .child (Expression.identifier "f")), ("arguments", .list [some shortCircuit])]⟩

/-- `if (true)` with a consequent. -/
def always (consequent : Node) : Node :=
  ⟨.ifStatement, [("test", .child (Expression.literal (.bool true))), ("consequent", .child consequent)]⟩

/-- `var` with a declarator. -/
def declaring (declarator : Node) : Node :=
  ⟨.variableDeclaration,
    [("kind", .value (.string "var")), ("declarations", .list [some declarator])]⟩

/-- `var` with a pattern. -/
def declaringPattern (pattern : Node) : Node :=
  declaring ⟨.variableDeclarator, [("id", .child pattern), ("init", .value .null)]⟩

/-- `"use strict"; if (true) { f(undefined && true); return; f(undefined && true); } var a;` -/
def returningEarly : Node :=
  programOf
    [discarding (Expression.literal (.string "use strict")),
     always ⟨.blockStatement, [("body", .list
      [some calling, some ⟨.returnStatement, [("argument", .value .null)]⟩, some calling])]⟩,
     declaringPattern (Expression.identifier "a")]

/-- The call and the return are executed. -/
theorem optimize_keeps_run_returningEarly :
    returningEarly.kind = .program ∧ placed .plain returningEarly = true ∧
      (runAll (returningEarly.children "body")).emitted.length = 2 ∧ RunKept returningEarly :=
  ⟨rfl, by decide +kernel, by decide +kernel,
    optimize_keeps_run returningEarly rfl (by decide +kernel)⟩

/-- The statements that an optimized program executes. -/
def emittedAfter (n : Node) : List Node :=
  match optimize n with
  | .ok m => (runAll (m.children "body")).emitted
  | .error _ => []

theorem RunKept.map_eq {α : Type} (h : RunKept n) (f : Except Error Node → α) :
    (runAll (n.children "body")).emitted.map (fun s => f (optimize (programOf [s])))
      = (emittedAfter n).map fun s => f (.ok (programOf [s])) := by
  obtain ⟨m, hm, _, hemitted⟩ := h
  unfold emittedAfter
  rw [hm]
  have hmap := congrArg (List.map f) hemitted
  rw [List.map_map, List.map_map] at hmap
  exact hmap

/-- The kind of the first argument of the call that a program is. -/
def argumentKind? (optimized : Except Error Node) : Option Kind :=
  optimized.toOption.bind fun n =>
    (n.at? [⟨"body", some 0⟩, ⟨"expression", none⟩, ⟨"arguments", some 0⟩]).map (·.kind)

/-- A program that binds no name of a constant and does not keep its run. -/
def LosesRun (n : Node) : Prop :=
  n.kind = .program ∧ (∀ o ∈ n.occurrences, ∀ b ∈ o.visibleBindings, namesConstant b.node = false) ∧
    ¬ RunKept n

/-- It is enough that the calls executed differ in their arguments. -/
theorem losesRun_of_argumentKind? (hkind : n.kind = .program)
    (hbound : ∀ o ∈ n.occurrences, ∀ b ∈ o.visibleBindings, namesConstant b.node = false)
    (hdiffer : (runAll (n.children "body")).emitted.map
        (fun s => argumentKind? (optimize (programOf [s])))
      ≠ (emittedAfter n).map fun s => argumentKind? (.ok (programOf [s]))) : LosesRun n :=
  ⟨hkind, hbound, fun h => hdiffer (h.map_eq argumentKind?)⟩

/-- **The places count.** Where an operator or an `if` stands for a pattern, or an `if` for a declarator,
it is reduced to one that binds `undefined`. Where an `if` stands for an expression, an operator for a
piece of a template, or the literal of a directive has no value, the statement gains, loses or had no
value. -/
theorem run_not_kept :
    LosesRun (programOf [declaringPattern shortCircuit, calling]) ∧
    LosesRun (programOf [declaringPattern (always (Expression.identifier "undefined")), calling]) ∧
    LosesRun (programOf [declaring
      (always ⟨.other "Declarator", [("id", .child (Expression.identifier "undefined"))]⟩), calling]) ∧
    LosesRun (programOf [discarding (always (Expression.literal (.bool true)))]) ∧
    LosesRun (programOf [discarding ⟨.templateLiteral,
      [("quasis", .list [some (shortCircuit.setValue "value" (.object [("cooked", .string "a")]))]),
       ("expressions", .list [])]⟩]) ∧
    LosesRun (programOf [discarding
      ((Expression.literal (.string "use strict")).setValue "regex" (.object []))]) := by
  refine ⟨?_, ?_, ?_, ?_, ?_, ?_⟩
  · exact losesRun_of_argumentKind? rfl (by decide +kernel) (by decide +kernel)
  · exact losesRun_of_argumentKind? rfl (by decide +kernel) (by decide +kernel)
  · exact losesRun_of_argumentKind? rfl (by decide +kernel) (by decide +kernel)
  · exact losesRun_of_argumentKind? rfl (by decide +kernel) (by decide +kernel)
  · exact losesRun_of_argumentKind? rfl (by decide +kernel) (by decide +kernel)
  · exact losesRun_of_argumentKind? rfl (by decide +kernel) (by decide +kernel)

end Minifier.Optimize
