import Minifier.Proofs.Optimize.Simulation
import Minifier.Proofs.Scope.Likeness

/-!
# Shadowed constants

The names of the global constants may be bound around an expression. Evaluation asks for this at every
constant that it reads (`unbound_of_reads`), in the tree as the cursor shows it: without the node that the
optimizer is at.

* **Tests** (`folded_test_bound_iff`). A constant read in the test of an `if` that is folded is bound
  where the test stands iff the `if` itself holds the binding. That one is out of sight while the test is
  evaluated.
* **Constants put in the place of expressions** (`folded_keeps_value_iff`). The expression for a value is
  itself spelled with a constant if the value is `undefined` or no finite number. Nothing asks whether that
  one is bound, and the value is kept iff it is not.
-/

namespace Minifier

open Node

/-! ## Bound names -/

namespace Scope

/-- A name is bound where a visible binding has it. -/
theorem isBound_eq_any (ancestors : List Ancestor) (name : String) :
    isBound ancestors name = (visible ancestors).any (·.node.isIdentifierNamed name) := by
  rw [isBound, resolve_eq]
  induction visible ancestors with
  | nil => rfl
  | cons b l ih =>
      have hmatching :
          matching? [] name b = if b.node.isIdentifierNamed name then some .shadowed else none := rfl
      rw [List.findSome?_cons, List.any_cons, hmatching]
      cases b.node.isIdentifierNamed name with
      | true => rfl
      | false => exact ih

theorem isBound_iff {ancestors : List Ancestor} {name : String} :
    isBound ancestors name = true ↔
      ∃ b ∈ visible ancestors, b.node.isIdentifierNamed name = true := by
  rw [isBound_eq_any, List.any_eq_true]

end Scope

/-- What is not in the gap has a counterpart in a thinned list. -/
theorem Thinned.exists_similar {gap : Option Path} {l l' : List Occurrence} (h : Thinned gap l l')
    {b : Occurrence} (hb : b ∈ l) (hshown : ¬ Concealed gap b.path) :
    ∃ b' ∈ l', b.Similar gap b' := by
  induction h with
  | nil => cases hb
  | @keep o o' l l' h _ ih =>
      rcases List.mem_cons.mp hb with rfl | hb
      · exact ⟨o', List.mem_cons_self, h⟩
      · obtain ⟨b', hb', hsimilar⟩ := ih hb
        exact ⟨b', List.mem_cons_of_mem _ hb', hsimilar⟩
  | @drop o l l' h _ ih =>
      rcases List.mem_cons.mp hb with rfl | hb
      · exact absurd h hshown
      · exact ih hb

/-- What can be taken out of a slot stands there. -/
theorem Node.at?_of_detach {t n rest : Node} {p : Path} (h : t.detach p = some (n, rest)) :
    t.at? p = some n := by
  induction p generalizing t rest with
  | nil =>
      cases h
      rfl
  | cons step p ih =>
      cases p with
      | nil =>
          obtain ⟨c, hstep, hpair⟩ := Option.map_eq_some_iff.mp h
          cases hpair
          rw [at?_cons, hstep]
          rfl
      | cons next p =>
          obtain ⟨c, hstep, hrest⟩ := Option.bind_eq_some_iff.mp h
          obtain ⟨⟨taken, left⟩, hdetach, hpair⟩ := Option.bind_eq_some_iff.mp hrest
          cases hpair
          rw [at?_cons, hstep]
          exact ih hdetach

/-- What is put into a slot that was emptied can be taken out again. -/
theorem Node.detach_attach {t n rest : Node} {p : Path} (h : t.detach p = some (n, rest)) (m : Node) :
    (rest.attach m p).detach p = some (m, rest) := by
  induction p generalizing t n rest with
  | nil =>
      cases h
      rfl
  | cons step p ih =>
      cases p with
      | nil =>
          obtain ⟨c, hstep, hpair⟩ := Option.map_eq_some_iff.mp h
          cases hpair
          simp [attach, detach, fill_fill, step?_fill hstep]
      | cons next p =>
          obtain ⟨c, hstep, hrest⟩ := Option.bind_eq_some_iff.mp h
          obtain ⟨⟨taken, left⟩, hdetach, hpair⟩ := Option.bind_eq_some_iff.mp hrest
          cases hpair
          simp [attach, detach, fill_fill, step?_fill hstep, ih hdetach]

/-- What is bound at a position is bound in the tree without the node there, unless the node itself holds
the binding. -/
theorem Scope.isBound_of_detach {t n rest : Node} {p : Path} {name : String}
    (hdetach : t.detach p = some (n, rest)) (h : isBound (t.ancestors p) name = true) :
    isBound (rest.ancestors p) name = true ∨
      ∃ b ∈ visible (t.ancestors p), b.node.isIdentifierNamed name = true ∧ p <+: b.path := by
  obtain ⟨b, hb, hname⟩ := isBound_iff.mp h
  by_cases hinside : p <+: b.path
  · exact .inr ⟨b, hb, hname, hinside⟩
  · left
    have hne : p ≠ [] := by
      rintro rfl
      exact hinside ⟨b.path, rfl⟩
    have hresembles := resembles_detach hne hdetach
    have hancestors := similar_ancestors_of_gap hresembles.alike (at?_of_detach hdetach)
      fun q hq => (Option.some.inj hq).symm
    obtain ⟨b', hb', hsimilar⟩ := (thinned_visible hancestors).exists_similar hb <| by
      rintro ⟨q, hq, hpre⟩
      cases hq
      exact hinside hpre
    -- The counterpart has the same name.
    have hsame : b.node.SameText b'.node := by
      have hpair := hresembles b.path
      rw [holds_of_mem_visible hb, ← hsimilar.path, holds_of_mem_visible hb'] at hpair
      cases hpair with
      | present _ h => exact h
    refine isBound_iff.mpr ⟨b', hb', ?_⟩
    rw [isIdentifierNamed, hsame.kind, name?, hsame.text]
    exact hname

namespace Optimize

variable {binds : String → Bool} {n : Node} {name : String} {v : Value}

/-! ## Constants that are read -/

/-- Evaluating an expression to its value reads the constant of the name. The right operand of a logical
operator is read only if the left one does not decide. -/
inductive Reads (binds : String → Bool) (name : String) : Node → Prop where
  | constant {n : Node} (hkind : n.kind = .identifier) (hname : n.name? = some name)
      (hconstant : (constantValue? name).isSome = true) : Reads binds name n
  | parenthesized {n c : Node} (hkind : n.kind = .parenthesizedExpression)
      (hc : n.child? "expression" = some c) (h : Reads binds name c) : Reads binds name n
  | argument {n c : Node} (hkind : n.kind = .unaryExpression) (hc : n.child? "argument" = some c)
      (h : Reads binds name c) : Reads binds name n
  | operand {n c : Node} {field : String} (hkind : n.kind = .binaryExpression)
      (hfield : field = "left" ∨ field = "right") (hc : n.child? field = some c)
      (h : Reads binds name c) : Reads binds name n
  | left {n c : Node} (hkind : n.kind = .logicalExpression) (hc : n.child? "left" = some c)
      (h : Reads binds name c) : Reads binds name n
  | right {n c l : Node} {operator : LogicalOperator} {value : Value}
      (hkind : n.kind = .logicalExpression)
      (hoperator : (n.text? "operator").bind LogicalOperator.ofText? = some operator)
      (hl : n.child? "left" = some l) (hvalue : evaluate? binds l = some value)
      (hopen : value.decides operator = false) (hc : n.child? "right" = some c)
      (h : Reads binds name c) : Reads binds name n

/-- **An expression with a value reads no constant whose name is bound.** -/
theorem unbound_of_reads (h : Reads binds name n) (hvalue : evaluate? binds n = some v) :
    binds name = false := by
  induction h generalizing v with
  | constant hkind hname hconstant =>
      rw [evaluate?_eq, valueFrom?, hkind] at hvalue
      simp only [hname, Option.bind_some] at hvalue
      by_contra hbound
      simp [hbound] at hvalue
  | parenthesized hkind hc _ ih =>
      rw [evaluate?_eq, valueFrom?, hkind] at hvalue
      simp only [hc, Option.bind_some] at hvalue
      exact ih hvalue
  | argument hkind hc _ ih =>
      rw [evaluate?_eq, valueFrom?, hkind] at hvalue
      obtain ⟨operator, _, hvalue⟩ := Option.bind_eq_some_iff.mp hvalue
      obtain ⟨operand, hoperand, _⟩ := Option.bind_eq_some_iff.mp hvalue
      rw [hc] at hoperand
      exact ih hoperand
  | operand hkind hfield hc _ ih =>
      rw [evaluate?_eq, valueFrom?, hkind] at hvalue
      obtain ⟨operator, _, hvalue⟩ := Option.bind_eq_some_iff.mp hvalue
      obtain ⟨left, hleft, hvalue⟩ := Option.bind_eq_some_iff.mp hvalue
      obtain ⟨right, hright, _⟩ := Option.bind_eq_some_iff.mp hvalue
      rcases hfield with rfl | rfl
      · rw [hc] at hleft
        exact ih hleft
      · rw [hc] at hright
        exact ih hright
  | left hkind hc _ ih =>
      rw [evaluate?_eq, valueFrom?, hkind] at hvalue
      obtain ⟨operator, _, hvalue⟩ := Option.bind_eq_some_iff.mp hvalue
      obtain ⟨left, hleft, _⟩ := Option.bind_eq_some_iff.mp hvalue
      rw [hc] at hleft
      exact ih hleft
  | right hkind hoperator hl hvaluel hopen hc _ ih =>
      rw [evaluate?_eq, valueFrom?, hkind] at hvalue
      simp only [hoperator, hl, hvaluel, hc, Option.bind_some, bind] at hvalue
      rw [hopen] at hvalue
      exact ih hvalue

/-! ## Tests -/

/-- The tree after a rule has been applied at a position, if the rule put something else there. -/
def foldedAt? (rule : Rule) (t : Node) (p : Path) : Option Node :=
  match Walk.act p rule (t, ()) with
  | .ok (.kept, _) _ => none
  | .ok _ (left, _) => some left
  | .error _ _ => none

variable {t rest left : Node} {p : Path}

/-- What the rule did to the cursor at the position. -/
theorem exists_of_foldedAt? {rule : Rule} (h : foldedAt? rule t p = some left)
    (hdetach : t.detach p = some (n, rest)) :
    ∃ c, rule ({ root := rest, path := p, node := n }, ()) = .ok () (c, ()) ∧
      c.outcome ≠ .kept ∧ rest.attach c.node p = left := by
  simp only [foldedAt?, Walk.act, hdetach] at h
  cases hrule : rule ({ root := rest, path := p, node := n }, ()) with
  | error e c => simp [hrule] at h
  | ok u c =>
      refine ⟨c.1, rfl, ?_, ?_⟩
      · intro hkept
        simp [hrule, hkept] at h
      · cases houtcome : c.1.outcome <;> simp_all

/-- Only an `if` whose test has a value is folded. -/
theorem test_of_foldIf {c c' : Cursor Hook} (h : foldIf (c, ()) = .ok () (c', ()))
    (hkept : c.outcome = .kept) (hfolded : c'.outcome ≠ .kept) :
    ∃ test value, c.node.child? "test" = some test ∧ valueAt? c test = some value := by
  cases htest : (c.node.child? "test").bind (valueAt? c) with
  | none =>
      unfold foldIf at h
      rw [Action.cursor_bind, htest] at h
      cases h
      exact absurd hkept hfolded
  | some value =>
      obtain ⟨test, hchild, hvalue⟩ := Option.bind_eq_some_iff.mp htest
      exact ⟨test, value, hchild, hvalue⟩

/-- An `if` shows nothing to what is in it. -/
theorem visible_inside_if (hp : t.at? p = some n) (hkind : n.kind = .ifStatement) (step : Step) :
    Scope.visible (t.ancestors (p ++ [step])) = Scope.visible (t.ancestors p) := by
  rw [ancestors_concat hp, Scope.visible, List.flatMap_cons]
  simp [Ancestor.occurrence, Occurrence.visibleBindings, hkind, Kind.isFunction, Kind.isClass,
    Scope.visible]

/-- **When a folded test reads a shadowed constant.** An `if` is folded only if its test has a value. A
constant that is read for this is bound where the test stands, in the whole tree, iff the `if` itself
holds a binding of the name. -/
theorem folded_test_bound_iff (hdetach : t.detach p = some (n, rest)) (hkind : n.kind = .ifStatement)
    (hfolded : foldedAt? (leave .foldIf) t p = some left) :
    ∃ test value, n.child? "test" = some test ∧
      evaluate? (Scope.isBound (rest.ancestors p)) test = some value ∧
      ∀ name, Reads (Scope.isBound (rest.ancestors p)) name test →
        (Scope.isBound (t.ancestors (p ++ [⟨"test", none⟩])) name = true ↔
          ∃ b ∈ Scope.visible (t.ancestors p), b.node.isIdentifierNamed name = true ∧
            p <+: b.path) := by
  obtain ⟨c, hfold, houtcome, _⟩ := exists_of_foldedAt? hfolded hdetach
  obtain ⟨test, value, htest, hvalue⟩ := test_of_foldIf hfold rfl houtcome
  refine ⟨test, value, htest, hvalue, fun name hreads => ?_⟩
  have hunbound : Scope.isBound (rest.ancestors p) name = false := unbound_of_reads hreads hvalue
  have hsame : Scope.isBound (t.ancestors (p ++ [⟨"test", none⟩])) name
      = Scope.isBound (t.ancestors p) name := by
    rw [Scope.isBound_eq_any, Scope.isBound_eq_any, visible_inside_if (at?_of_detach hdetach) hkind]
  rw [hsame]
  constructor
  · intro hbound
    refine (Scope.isBound_of_detach hdetach hbound).resolve_left ?_
    rw [hunbound]
    exact Bool.false_ne_true
  · rintro ⟨b, hb, hname, _⟩
    exact Scope.isBound_iff.mpr ⟨b, hb, hname⟩

/-- `function f(parameters) { body }` -/
def functionOf (parameters : List Node) (body : List Node) : Node :=
  ⟨.program, [("body", .list [some ⟨.functionDeclaration,
    [("id", .child (Expression.identifier "f")), ("params", .list (parameters.map some)),
     ("body", .child ⟨.blockStatement, [("body", .list (body.map some))]⟩)]⟩])]⟩

/-- The first statement of the function. -/
def inFunction : Path := [⟨"body", some 0⟩, ⟨"body", none⟩, ⟨"body", some 0⟩]

/-- `function f() { if (Infinity) { var Infinity; } }` -/
def declaringInfinity : Node :=
  functionOf [] [⟨.ifStatement,
    [("test", .child (Expression.identifier "Infinity")),
     ("consequent", .child ⟨.blockStatement, [("body", .list
       [some ⟨.variableDeclaration, [("kind", .value (.string "var")), ("declarations", .list
         [some ⟨.variableDeclarator, [("id", .child (Expression.identifier "Infinity"))]⟩])]⟩])]⟩),
     ("alternate", .value .null)]⟩]

/-- The `if` is folded on a constant that a variable inside it shadows. -/
theorem folded_test_bound_iff_declaringInfinity :
    ∃ left n rest test, foldedAt? (leave .foldIf) declaringInfinity inFunction = some left ∧
      declaringInfinity.detach inFunction = some (n, rest) ∧ n.child? "test" = some test ∧
      Reads (Scope.isBound (rest.ancestors inFunction)) "Infinity" test ∧
      Scope.isBound (declaringInfinity.ancestors (inFunction ++ [⟨"test", none⟩])) "Infinity" = true ∧
      ∃ b ∈ Scope.visible (declaringInfinity.ancestors inFunction),
        b.node.isIdentifierNamed "Infinity" = true ∧ inFunction <+: b.path := by
  have hsome : (foldedAt? (leave .foldIf) declaringInfinity inFunction).isSome = true := by
    decide +kernel
  have hbound : Scope.isBound (declaringInfinity.ancestors (inFunction ++ [⟨"test", none⟩]))
      "Infinity" = true := by decide +kernel
  have hreads (binds : String → Bool) : Reads binds "Infinity" (Expression.identifier "Infinity") :=
    .constant rfl rfl rfl
  obtain ⟨left, hleft⟩ := Option.isSome_iff_exists.mp hsome
  obtain ⟨test, value, htest, _, hiff⟩ := folded_test_bound_iff
    (t := declaringInfinity) (p := inFunction) rfl rfl hleft
  cases htest
  exact ⟨left, _, _, _, hleft, rfl, rfl, hreads _, hbound, (hiff _ (hreads _)).mp hbound⟩

/-! ## Constants put in the place of expressions -/

/-- The constant that the expression for a value is spelled with. -/
def spelling? : Value → Option String
  | .undefined => some "undefined"
  | .number x => if x.isNaN then some "NaN" else if x.isInf then some "Infinity" else none
  | _ => none

theorem spelling?_number (x : Float) :
    spelling? (.number x)
      = if x.isNaN then some "NaN" else if x.isInf then some "Infinity" else none := rfl

theorem evaluate?_identifier (binds : String → Bool) (name : String) :
    evaluate? binds (Expression.identifier name)
      = if binds name then none else constant? (Expression.identifier name) := by
  rw [evaluate?_eq, constant?_eq]
  rfl

theorem evaluate?_literal (binds : String → Bool) (v : Value) :
    evaluate? binds (Expression.literal v) = constant? (Expression.literal v) := by
  rw [evaluate?_eq, constant?_eq]
  rfl

theorem evaluate?_negation (binds : String → Bool) (argument : Node) :
    evaluate? binds (Expression.negation argument)
      = (evaluate? binds argument).bind (Value.unary? .minus) := by
  rw [evaluate?_eq]
  rfl

theorem evaluate?_ofMagnitude (binds : String → Bool) (x : Float) :
    evaluate? binds (Expression.ofMagnitude x)
      = if x.isInf && binds "Infinity" then none else constant? (Expression.ofMagnitude x) := by
  unfold Expression.ofMagnitude
  split
  · rename_i hinf
    rw [evaluate?_identifier, hinf, Bool.true_and]
  · rename_i hinf
    rw [evaluate?_literal, Bool.eq_false_iff.mpr hinf, Bool.false_and, if_neg Bool.false_ne_true]

theorem evaluate?_ofNumber (binds : String → Bool) (x : Float) :
    evaluate? binds (Expression.ofNumber x)
      = if (spelling? (.number x)).any binds then none else constant? (Expression.ofNumber x) := by
  rw [Expression.ofNumber, spelling?_number]
  by_cases hnan : x.isNaN = true
  · rw [if_pos hnan, if_pos hnan]
    exact evaluate?_identifier binds "NaN"
  · rw [if_neg hnan, if_neg hnan]
    have hspelled : (if x.isInf = true then some "Infinity" else none).any binds
        = (x.isInf && binds "Infinity") := by
      cases x.isInf <;> rfl
    rw [hspelled]
    split
    · -- The sign does not change how the number is spelled.
      have hconstant : constant? (Expression.negation (Expression.ofMagnitude (-x)))
          = (constant? (Expression.ofMagnitude (-x))).bind (Value.unary? .minus) :=
        evaluate?_negation _ _
      rw [evaluate?_negation, evaluate?_ofMagnitude, Double.isInf_neg, hconstant]
      split <;> rfl
    · exact evaluate?_ofMagnitude binds x

/-- **The expression for a value has it where the constant is not bound that spells it**, and elsewhere it
has none. -/
theorem evaluate?_ofValue (binds : String → Bool) (h : v.isPrimitive = true) :
    evaluate? binds (Expression.ofValue v) = if (spelling? v).any binds then none else some v := by
  rw [← constant?_ofValue h]
  cases v with
  | undefined => exact evaluate?_identifier binds "undefined"
  | null => exact evaluate?_literal binds .null
  | bool b => exact evaluate?_literal binds (.bool b)
  | string s => exact evaluate?_literal binds (.string s)
  | number x => exact evaluate?_ofNumber binds x
  | array items => cases h
  | object entries => cases h

/-- What is put in the place of an expression is the expression for its value. -/
theorem value_of_foldExpression {c c' : Cursor Hook}
    (h : foldExpression (c, ()) = .ok () (c', ())) (hkept : c.outcome = .kept)
    (hfolded : c'.outcome ≠ .kept) :
    ∃ value, valueAt? c c.node = some value ∧ c'.node = Expression.ofValue value := by
  have hsame : c' ≠ c := by
    rintro rfl
    exact hfolded hkept
  unfold foldExpression at h
  rw [Action.cursor_bind] at h
  split at h
  · cases hvalue : valueAt? c c.node with
    | none =>
        rw [hvalue] at h
        cases h
        exact absurd rfl hsame
    | some value =>
        rw [hvalue] at h
        dsimp only at h
        split at h
        · cases h
          exact absurd rfl hsame
        · refine ⟨value, rfl, ?_⟩
          unfold Action.replace at h
          rw [Action.cursor_bind] at h
          split at h
          · cases h
          · cases h
            rfl
  · cases h
    exact absurd rfl hsame

/-- **When a folded expression keeps its value.** The expression that is put in the place of another is the
one for its value, and it stands in the same scope. There it has that value iff the constant that it is
spelled with, if any, is not bound. -/
theorem folded_keeps_value_iff {e : Node} (hdetach : t.detach p = some (e, rest))
    (hfolded : foldedAt? foldExpression t p = some left) :
    ∃ value, evaluate? (Scope.isBound (rest.ancestors p)) e = some value ∧
      left.detach p = some (Expression.ofValue value, rest) ∧
      (evaluate? (Scope.isBound (rest.ancestors p)) (Expression.ofValue value) = some value ↔
        ∀ name ∈ spelling? value, Scope.isBound (rest.ancestors p) name = false) := by
  obtain ⟨c, hfold, houtcome, hleft⟩ := exists_of_foldedAt? hfolded hdetach
  obtain ⟨value, hvalue, hnode⟩ := value_of_foldExpression hfold rfl houtcome
  refine ⟨value, hvalue, ?_, ?_⟩
  · rw [← hleft, hnode]
    exact detach_attach hdetach _
  · rw [evaluate?_ofValue _ (isPrimitive_of_evaluate? hvalue)]
    cases spelling? value with
    | none => simp
    | some name => cases hbound : Scope.isBound (rest.ancestors p) name <;> simp [hbound]

/-- `function f(NaN) { return 0 / 0; }` -/
def dividingByZero : Node :=
  functionOf [Expression.identifier "NaN"]
    [⟨.returnStatement, [("argument", .child ⟨.binaryExpression,
      [("operator", .value (.string "/")), ("left", .child (Expression.literal (.number 0))),
       ("right", .child (Expression.literal (.number 0)))]⟩)]⟩]

/-- The position of `0 / 0`. -/
def atQuotient : Path := inFunction ++ [⟨"argument", none⟩]

/-- The value is spelled with a constant that the parameter shadows. -/
theorem folded_keeps_value_iff_dividingByZero :
    ∃ left e rest value, foldedAt? foldExpression dividingByZero atQuotient = some left ∧
      dividingByZero.detach atQuotient = some (e, rest) ∧
      evaluate? (Scope.isBound (rest.ancestors atQuotient)) e = some value ∧
      left.detach atQuotient = some (Expression.ofValue value, rest) ∧
      evaluate? (Scope.isBound (rest.ancestors atQuotient)) (Expression.ofValue value) ≠ some value := by
  have hsome : (foldedAt? foldExpression dividingByZero atQuotient).isSome = true := by
    decide +kernel
  have hspelled : ((dividingByZero.detach atQuotient).bind fun taken =>
      (evaluate? (Scope.isBound (taken.2.ancestors atQuotient)) taken.1).bind spelling?)
        = some "NaN" := by decide +kernel
  have hbound : ((dividingByZero.detach atQuotient).map fun taken =>
      Scope.isBound (taken.2.ancestors atQuotient) "NaN") = some true := by decide +kernel
  obtain ⟨left, hleft⟩ := Option.isSome_iff_exists.mp hsome
  obtain ⟨⟨e, rest⟩, hdetach, hspelled⟩ := Option.bind_eq_some_iff.mp hspelled
  obtain ⟨value, hvalue, hplace, hiff⟩ := folded_keeps_value_iff hdetach hleft
  refine ⟨left, e, rest, value, hleft, hdetach, hvalue, hplace, fun hkept => ?_⟩
  simp only [hvalue, Option.bind_some] at hspelled
  simp only [hdetach, Option.map_some, Option.some.injEq] at hbound
  rw [hiff.mp hkept "NaN" hspelled] at hbound
  cases hbound

end Optimize

end Minifier
