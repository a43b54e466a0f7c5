import Minifier.Proofs.Optimize.Plain

/-!
# When the optimizer fails

Every edit that the optimizer makes has its place: below the root a node can be replaced, and only in a list is
one removed or spliced. The root stands in no slot. So the optimizer fails if the root itself is to be
replaced, and for no other reason:

* the root is an operator for which a constant is put (`FoldsAway`), or
* the root is an `if` that is decided when all below it is done (`Decides`).

The `if` is looked at last. Its test and its branches count as the optimizer leaves them, and only in a tree
whose expressions are in place does the test have the value that it had (`constant?_makes`).
-/

namespace Minifier.Optimize

open Node

variable {around : Surroundings} {n m c : Node} {x : Settled × Node} {place : Place} {name : String}

/-! ## Values are kept -/

/-- A piece of a template that is none of what the optimizer replaces keeps its text. -/
theorem Makes.cookedText?_of_seated (h : Makes around n x) (hn : seated .quasi n = true) :
    cookedText? x.2 = cookedText? n := by
  have hallows := allows_of_stands hn
  simp only [Place.allows, Bool.and_eq_true, bne_iff_ne, Bool.not_eq_true'] at hallows
  rcases h.turn.cases_of_ne_if hallows.1 with ⟨_, hoperator, _⟩ | ⟨_, _, rfl⟩ | ⟨r, hleft, hkind, rfl⟩
  · rw [hallows.2] at hoperator
    cases hoperator
  · rfl
  · unfold cookedText?
    rw [value?_settle (hkind ▸ hallows.1), hleft.value?_eq, value?_shorten]

theorem templateValue?_of_seated {r : Node} (h : FieldsLeft Makes around n.kind.fields n r)
    (hkind : n.kind = .templateLiteral) (hn : seated place n = true) :
    templateValue? r = templateValue? n := by
  have hopens : (spotOf around).opensBody n.kind = false := by rw [hkind]; rfl
  have hchildren : ∀ name ∈ n.kind.fields, ∀ inner, place.seat n.kind name = some inner → inner ≠ .plain →
      List.Forall₂ (fun c m => c.kind ≠ .ifStatement ∧ ∃ a, Makes a c (.keep, m)) (n.children name)
        (r.children name) := by
    intro name hname inner hseat hplain
    apply h.children (nodup_fields _) hname hopens
    intro slots hslots c hc
    exact ne_if_of_allows hplain (stands_slot hn (slots?_eq_some_iff.mp hslots) hseat hc)
  have hexpressions := hchildren "expressions" (by rw [hkind]; decide) .operand (by rw [hkind]; rfl) (by decide)
  have hquasis := hchildren "quasis" (by rw [hkind]; decide) .quasi (by rw [hkind]; rfl) (by decide)
  have hseated : ∀ c ∈ n.children "quasis", seated .quasi c = true := fun c hc =>
    stands_children hn hc (by rw [hkind]; rfl)
  have hempty : (r.children "expressions").isEmpty = (n.children "expressions").isEmpty := by
    rw [Bool.eq_iff_iff, List.isEmpty_iff_length_eq_zero, List.isEmpty_iff_length_eq_zero,
      hexpressions.length_eq]
  have hhead : (r.children "quasis").head?.bind cookedText? = (n.children "quasis").head?.bind cookedText? := by
    generalize n.children "quasis" = before at hquasis hseated ⊢
    generalize r.children "quasis" = after at hquasis ⊢
    cases hquasis with
    | nil => rfl
    | cons hquasi _ =>
        obtain ⟨_, a, hmade⟩ := hquasi
        exact hmade.cookedText?_of_seated (hseated _ List.mem_cons_self)
  rw [templateValue?_eq, templateValue?_eq, hempty, hhead]

/-- **An expression keeps its value**, wherever it stands, if nothing in it is out of place. -/
theorem constant?_makes (h : Makes around n x) (hn : seated place n = true) (hif : n.kind ≠ .ifStatement) :
    constant? x.2 = constant? n := by
  revert hn hif place
  refine Makes.induction (P := fun _ n x => ∀ {place : Place}, seated place n = true →
    n.kind ≠ .ifStatement → constant? x.2 = constant? n) ?_ h
  intro around n x _ hturn place hn hif
  rcases hturn.cases_of_ne_if hif with ⟨w, _, hw, rfl⟩ | ⟨_, _, rfl⟩ | ⟨r, hleft, hkind, rfl⟩
  · rw [hw]
    exact constant?_ofValue (isPrimitive_of_evaluate? hw)
  · rfl
  · have hsettled := kind_settle (hkind ▸ hif) (spotOf around).listed
    by_cases hstatement : n.kind = .expressionStatement ∨ n.kind = .blockStatement
    · rw [constant?_of_statement hstatement,
        constant?_of_statement (by rw [hsettled, hkind]; exact hstatement)]
    · obtain ⟨hexpression, hblock⟩ := not_or.mp hstatement
      rw [settle_of_other (hkind ▸ hif) (hkind ▸ hblock)]
      rw [shorten_of_ne hexpression] at hleft
      have hoperand : ∀ name ∈ n.kind.fields, place.seat n.kind name = some .operand →
          (r.child? name).bind constant? = (n.child? name).bind constant? := by
        intro name hname hseat
        rcases hleft.child? (nodup_fields _) hname with ⟨hc, hr⟩ | ⟨c, m, a, hc, hr, _, _, _, hvalue⟩
        · rw [hc, hr]
        · have hseated := stands_child hn hc hseat
          rw [hc, hr]
          exact hvalue hseated (ne_if_of_allows (by decide) hseated)
      show constant? r = constant? n
      cases hoperator : n.kind.isOperator with
      | true =>
          apply constant?_operator_congr hoperator hkind (hleft.text?_eq _)
          intro name hname
          exact hoperand name hname (seat_of_isOperator hoperator hname)
      | false =>
          rw [constant?_eq, constant?_eq]
          unfold valueFrom?
          rw [hkind]
          cases hn' : n.kind with
          | literal => rw [hleft.eq_of_nil (by rw [hn']; rfl)]
          | identifier => rw [hleft.eq_of_nil (by rw [hn']; rfl)]
          | parenthesizedExpression =>
              exact hoperand "expression" (by rw [hn']; decide) (by rw [hn']; rfl)
          | templateLiteral =>
              exact templateValue?_of_seated (hleft.mono (nodup_fields _) fun _ _ _ hy => hy.1) hn' hn
          | unaryExpression => rw [hn'] at hoperator; cases hoperator
          | binaryExpression => rw [hn'] at hoperator; cases hoperator
          | logicalExpression => rw [hn'] at hoperator; cases hoperator
          | _ => rfl

/-! ## The root -/

/-- A constant is put for the operator. -/
def FoldsAway (n : Node) : Prop :=
  n.kind.isOperator = true ∧ n.text? "operator" ≠ some "void" ∧
    ∃ v, constant? n = some v ∧ (Expression.ofValue v).same n = false

/-- The test of an `if` has a constant value, and the branch that is not taken for it declares no variable. The
test is read in one tree and the branches in another. -/
def Decides (tested left : Node) : Prop :=
  ∃ v, (tested.child? "test").bind constant? = some v ∧ (branches left v.truthy).2.any declaresVar = false

/-- The root is to be replaced: a constant is put for it, or it is an `if` that is decided. -/
def ReplacesRoot (tree tested left : Node) : Prop :=
  FoldsAway tree ∨ (tree.kind = .ifStatement ∧ Decides tested left)

theorem foldsAway_iff : FoldsAway n ↔ ∃ m, foldedBy constant? n = some m := by
  constructor
  · rintro ⟨hkind, htext, v, hv, hsame⟩
    refine ⟨Expression.ofValue v, ?_⟩
    rw [foldedBy, hkind, bne_iff_ne.mpr htext, hv]
    simp [hsame]
  · rintro ⟨m, hm⟩
    obtain ⟨hkind, htext, v, hv, rfl⟩ := foldedBy_eq_some hm
    refine ⟨hkind, htext, v, hv, ?_⟩
    rw [foldedBy, hkind, bne_iff_ne.mpr htext, hv] at hm
    simpa using hm

theorem replace_root {c : Cursor Hook} (h : c.isRoot = true) (m : Node) :
    Action.replace m (c, ()) = .error (.edit .replaceRoot) (c, ()) := by
  unfold Action.replace
  rw [Action.cursor_bind, h]
  rfl

/-- An operator for which a constant is to be put is met in vain. -/
theorem enter_root (h : foldedBy constant? n = some m) :
    enter (cursorOn [] n, ()) = .error (.edit .replaceRoot) (cursorOn [] n, ()) := by
  obtain ⟨hoperator, _⟩ := foldedBy_eq_some h
  have hfold : foldExpression (cursorOn [] n, ())
      = .error (.edit .replaceRoot) (cursorOn [] n, ()) := by
    -- Nothing is bound around the root, so that the value there is that of the constant alone.
    have hfolded : foldedBy (valueAt? (cursorOn [] n)) (cursorOn [] n).node = some m := h
    rw [foldExpression_eq hoperator, hfolded]
    exact replace_root rfl m
  have hnode : (cursorOn [] n).node = n := rfl
  unfold enter
  rw [Action.node_bind, hnode]
  rcases Kind.isOperator_iff.mp hoperator with hkind | hkind | hkind <;> rw [hkind] <;> exact hfold

/-- An `if` that is decided is left in vain. -/
theorem foldIf_of_decides (h : Decides n n) :
    foldIf (cursorOn [] n, ()) = .error (.edit .replaceRoot) (cursorOn [] n, ()) := by
  obtain ⟨test, htest, huntaken⟩ := h
  have hnode : (cursorOn [] n).node = n := rfl
  have hvalue : valueAt? (cursorOn [] n) = constant? := rfl
  have hindex : (cursorOn [] n).index? = none := rfl
  unfold foldIf
  rw [Action.cursor_bind, hnode, hvalue, htest]
  dsimp only
  rw [if_neg (by simp [huntaken]), hindex]
  cases (branches n test.truthy).1 with
  | none => exact replace_root rfl _
  | some statement => exact replace_root rfl _

/-- An `if` that is not decided is left as it is. -/
theorem foldIf_of_not_decides (h : ¬ Decides n n) :
    foldIf (cursorOn [] n, ()) = .ok () (cursorOn [] n, ()) := by
  have hnode : (cursorOn [] n).node = n := rfl
  have hvalue : valueAt? (cursorOn [] n) = constant? := rfl
  unfold foldIf
  rw [Action.cursor_bind, hnode, hvalue]
  cases htest : (n.child? "test").bind constant? with
  | none => rfl
  | some test =>
      have huntaken : (branches n test.truthy).2.any declaresVar = true := by
        by_contra huntaken
        exact h ⟨test, htest, Bool.eq_false_iff.mpr huntaken⟩
      dsimp only
      rw [if_pos huntaken]
      rfl

/-! ## Whole runs -/

theorem open_nil : Surroundings.Open [] := fun _ hf => nomatch hf

theorem exists_levels (n : Node) : ∃ levels, n.size = levels + 1 :=
  ⟨n.size - 1, by have := size_pos n; omega⟩

theorem act_of_error {action : Rule} {e : Error} {c : Cursor Hook}
    (h : action (cursorOn around n, ()) = .error e (c, ())) :
    Sweep.act around action (n, ()) = .error (.failed e) (c.node, ()) := by
  unfold cursorOn at h
  simp only [Sweep.act, h]

theorem run_of_foldsAway (h : FoldsAway n) :
    optimizer.run n.size n () = ⟨n, (), some (.failed (.edit .replaceRoot))⟩ := by
  obtain ⟨m, hm⟩ := foldsAway_iff.mp h
  obtain ⟨levels, hlevels⟩ := exists_levels n
  have hsweep : Sweep.node optimizer n.size [] (n, ())
      = .error (.failed (.edit .replaceRoot)) (n, ()) := by
    rw [hlevels]
    show EStateM.bind (Sweep.act [] enter) _ _ = _
    simp only [EStateM.bind, act_of_error (enter_root hm)]
    rfl
  rw [Sweep.run_eq, Visitor.sweep, hsweep]

/-- A root that is neither to be replaced by a constant nor an `if` is swept like any other node. -/
theorem run_of_kept (hfolds : ¬ FoldsAway n) (hif : n.kind ≠ .ifStatement) :
    ∃ left, optimizer.run n.size n () = ⟨left, (), none⟩ := by
  obtain ⟨levels, hlevels⟩ := exists_levels n
  have hfolded : foldedBy constant? n = none := by
    rw [Option.eq_none_iff_forall_ne_some]
    exact fun m hm => hfolds (foldsAway_iff.mpr ⟨m, hm⟩)
  obtain ⟨x, hx, _⟩ := sweep_node (sweepsBelow levels) open_nil (.inr ⟨hfolded, hif⟩) hlevels.le
  refine ⟨x.2, ?_⟩
  rw [Sweep.run_eq, Visitor.sweep, hlevels, hx]

/-- The fields of an `if` are swept, and then it is decided or not. -/
theorem run_of_if (hkind : n.kind = .ifStatement) :
    ∃ left, FieldsLeft Makes [] n.kind.fields n left ∧
      (Decides left left →
        optimizer.run n.size n () = ⟨left, (), some (.failed (.edit .replaceRoot))⟩) ∧
      (¬ Decides left left → optimizer.run n.size n () = ⟨left, (), none⟩) := by
  obtain ⟨levels, hlevels⟩ := exists_levels n
  obtain ⟨left, hfields, hleft⟩ := sweep_fields (sweepsBelow levels) open_nil hlevels.le
  have henter : Sweep.act [] enter (n, ()) = .ok (.kept, some .foldIf) (n, ()) := by
    have hroot : ([] : Surroundings) ≠ [] ∨ foldedBy (valueIn? []) n = none :=
      .inr (foldedBy_of_not_isOperator _ (by rw [hkind]; rfl))
    have hact := act_enter hroot
    rw [metBy_of_plain _ (by rw [hkind]; rfl) (by rw [hkind]; decide), hkind] at hact
    exact hact
  have hsweep : Sweep.node optimizer n.size [] (n, ())
      = (Sweep.leave optimizer [] (some .foldIf)) (left, ()) := by
    rw [hlevels]
    show EStateM.bind (Sweep.act [] enter) _ _ = _
    simp only [EStateM.bind, henter]
    show EStateM.bind (Sweep.fields _ []) _ _ = _
    simp only [EStateM.bind, hfields]
  refine ⟨left, hleft.mono (nodup_fields _) fun _ _ _ hy => ⟨_, hy⟩, fun hdecides => ?_, fun hdecides => ?_⟩
  · have hleave : Sweep.leave optimizer [] (some .foldIf) (left, ())
        = .error (.failed (.edit .replaceRoot)) (left, ()) := by
      show EStateM.bind (Sweep.act [] foldIf) _ _ = _
      simp only [EStateM.bind, act_of_error (foldIf_of_decides hdecides)]
      rfl
    rw [Sweep.run_eq, Visitor.sweep, hsweep, hleave]
  · have hleave : Sweep.leave optimizer [] (some .foldIf) (left, ()) = .ok .keep (left, ()) := by
      show EStateM.bind (Sweep.act [] foldIf) _ _ = _
      simp only [EStateM.bind, act_of_ok (foldIf_of_not_decides hdecides)]
      rfl
    rw [Sweep.run_eq, Visitor.sweep, hsweep, hleave]

/-- A test whose expressions are in place has the value that it had. -/
theorem test_of_fieldsLeft {left test : Node} (h : FieldsLeft Makes [] n.kind.fields n left)
    (hkind : n.kind = .ifStatement) (htest : n.child? "test" = some test)
    (hseated : seated .operand test = true) :
    (left.child? "test").bind constant? = constant? test := by
  have hname : "test" ∈ n.kind.fields := by rw [hkind]; decide
  rcases h.child? (nodup_fields _) hname with ⟨hnone, _⟩ | ⟨c, m, _, hc, hm, _, _, hmakes⟩
  · rw [htest] at hnone
    cases hnone
  · rw [htest] at hc
    cases hc
    rw [hm]
    exact constant?_makes hmakes hseated (ne_if_of_allows (by decide) hseated)

theorem kind_of_foldsAway (h : FoldsAway n) : n.kind ≠ .ifStatement := by
  intro hkind
  have hoperator := h.1
  rw [hkind] at hoperator
  cases hoperator

/-- **One run**, whatever the root is. -/
theorem run_root (tree : Node) :
    ∃ left, (ReplacesRoot tree left left →
        optimizer.run tree.size tree () = ⟨left, (), some (.failed (.edit .replaceRoot))⟩) ∧
      (¬ ReplacesRoot tree left left → optimizer.run tree.size tree () = ⟨left, (), none⟩) ∧
      (tree.kind = .ifStatement → FieldsLeft Makes [] tree.kind.fields tree left) := by
  by_cases hkind : tree.kind = .ifStatement
  · have hiff : ∀ left, ReplacesRoot tree left left ↔ Decides left left := by
      intro left
      refine ⟨?_, fun hdecides => .inr ⟨hkind, hdecides⟩⟩
      rintro (hfolds | ⟨_, hdecides⟩)
      · exact absurd hkind (kind_of_foldsAway hfolds)
      · exact hdecides
    obtain ⟨left, hleft, hfails, hkept⟩ := run_of_if hkind
    exact ⟨left, fun h => hfails ((hiff left).mp h), fun h => hkept (mt (hiff left).mpr h), fun _ => hleft⟩
  · have hiff : ∀ left, ReplacesRoot tree left left ↔ FoldsAway tree := by
      intro left
      refine ⟨?_, .inl⟩
      rintro (hfolds | ⟨hif, _⟩)
      · exact hfolds
      · exact absurd hif hkind
    by_cases hfolds : FoldsAway tree
    · exact ⟨tree, fun _ => run_of_foldsAway hfolds, fun h => absurd ((hiff tree).mpr hfolds) h,
        fun h => absurd h hkind⟩
    · obtain ⟨left, hrun⟩ := run_of_kept hfolds hkind
      exact ⟨left, fun h => absurd ((hiff left).mp h) hfolds, fun _ => hrun, fun h => absurd h hkind⟩

/-- **When the optimizer fails.** It fails if the root is an operator for which a constant is put, or an `if`
that is decided when all below it is done, and then because the root cannot be replaced. In every other
case it goes through the whole tree. The test of an `if` has then the value that it had before, if its
expressions are in place. -/
theorem optimize_fails_iff (tree : Node) :
    (optimize tree = .error (.edit .replaceRoot) ↔
      ReplacesRoot tree (optimizer.run tree.size tree ()).tree (optimizer.run tree.size tree ()).tree) ∧
    (optimize tree = .ok (optimizer.run tree.size tree ()).tree ↔
      ¬ ReplacesRoot tree (optimizer.run tree.size tree ()).tree (optimizer.run tree.size tree ()).tree) ∧
    (optimizer.run tree.size tree ()).stop ≠ some .tooDeep ∧
    (Error.edit .replaceRoot).message
      = "structural error: cannot replace the root: it has no parent slot" ∧
    ∀ test, tree.kind = .ifStatement → tree.child? "test" = some test → seated .operand test = true →
      ((optimizer.run tree.size tree ()).tree.child? "test").bind constant? = constant? test := by
  obtain ⟨left, hfails, hkept, hleft⟩ := run_root tree
  have htest : ∀ test, tree.kind = .ifStatement → tree.child? "test" = some test →
      seated .operand test = true → (left.child? "test").bind constant? = constant? test :=
    fun test hkind => test_of_fieldsLeft (hleft hkind) hkind
  unfold optimize
  by_cases hreplaces : ReplacesRoot tree left left
  · rw [hfails hreplaces]
    exact ⟨iff_of_true rfl hreplaces, iff_of_false nofun (not_not_intro hreplaces), nofun, rfl, htest⟩
  · rw [hkept hreplaces]
    exact ⟨iff_of_false nofun hreplaces, iff_of_true rfl hreplaces, nofun, rfl, htest⟩

/-- `if (…);` -/
def testing (test : Node) : Node :=
  ⟨.ifStatement, [("test", .child test), ("consequent", .child ⟨.emptyStatement, []⟩)]⟩

/-- `if (true);` cannot be folded at the root. -/
theorem optimize_fails_iff_testing :
    seated .operand (Expression.literal (.bool true)) = true ∧
      optimize (testing (Expression.literal (.bool true))) = .error (.edit .replaceRoot) := by
  have hseated : seated .operand (Expression.literal (.bool true)) = true := by decide +kernel
  obtain ⟨hfails, _, _, _, htest⟩ := optimize_fails_iff (testing (Expression.literal (.bool true)))
  have hvalue := (htest _ rfl rfl hseated).trans ((constant?_eq _).trans rfl)
  exact ⟨hseated, hfails.mpr (.inr ⟨rfl, .bool true, hvalue, by decide +kernel⟩)⟩

/-- Whether the optimizer fails is not told by the value that the test has before. -/
def MisreadsTest (tree : Node) : Prop :=
  ¬ ((∃ e, optimize tree = .error e) ↔ ReplacesRoot tree tree (optimizer.run tree.size tree ()).tree)

/-- `if (if (true) true);` -/
def testingIf : Node :=
  testing ⟨.ifStatement, [("test", .child (Expression.literal (.bool true))),
    ("consequent", .child (Expression.literal (.bool true)))]⟩

/-- A template for a test, the text of which hangs on an operator. -/
def testingTemplate : Node :=
  testing ⟨.templateLiteral, [("quasis", .list [some ⟨.logicalExpression,
    [("operator", .value (.string "&&")), ("left", .child (Expression.identifier "undefined")),
     ("right", .child (Expression.literal (.bool true))),
     ("value", .value (.object [("cooked", .string "a")]))]⟩])]⟩

/-- **The test is read when it is done.** An `if` that stands for the test gives it a value, and an operator that
stands for a piece of a template takes the value away. -/
theorem test_misread_before : MisreadsTest testingIf ∧ MisreadsTest testingTemplate := by
  constructor
  · intro hiff
    have hfails : (optimize testingIf).isOk = false := by decide +kernel
    have herror : ∃ e, optimize testingIf = .error e := by
      cases hresult : optimize testingIf with
      | error e => exact ⟨e, rfl⟩
      | ok left =>
          rw [hresult] at hfails
          cases hfails
    rcases hiff.mp herror with ⟨hoperator, _⟩ | ⟨_, v, hv, _⟩
    · cases hoperator
    · cases hv.symm.trans (constant?_eq _)
  · intro hiff
    have hkept : (optimize testingTemplate).isOk = true := by decide +kernel
    have hvalue : (testingTemplate.child? "test").bind constant? = some (.string "a") :=
      (constant?_eq _).trans rfl
    obtain ⟨e, he⟩ := hiff.mpr (.inr ⟨rfl, .string "a", hvalue, by decide +kernel⟩)
    rw [he] at hkept
    cases hkept

end Minifier.Optimize
