import Minifier.Proofs.Optimize.Execution

/-!
# Nothing is left to fold

`isNormal` says of a node that there is nothing to fold at it: an operator has no constant value or is the
expression for it already, and an `if` has a test without constant value or cannot be dropped. After one
walk of the optimizer all nodes are normal (`optimize_folds_out`).

Operators are folded on the way down and never looked at again, so that nothing below an operator may give
it a value that it did not have: reduction keeps values (`constant?_reduce`). An operator that is the
expression for its value holds nothing that is reduced (`reduceFields_of_same`). An `if` is folded on the way
up, and what happens above it later drops it or leaves it alone (`allNormal_settle`).
-/

namespace Minifier.Optimize

open Node

variable {n m c : Node} {place : Place} {s : Spot} {name : String} {v : Value} {content : Field Node}

/-! ## Normal nodes -/

/-- At the node there is nothing to fold. -/
def isNormal (n : Node) : Bool :=
  if n.kind.isOperator && n.text? "operator" != some "void" then
    (constant? n).all fun v => (Expression.ofValue v).same n
  else if n.kind = .ifStatement then
    ((n.child? "test").bind constant?).all fun v => (branches n v.truthy).2.any declaresVar
  else true

theorem isNormal_of_other (hoperator : n.kind.isOperator = false) (hif : n.kind ≠ .ifStatement) :
    isNormal n = true := by
  unfold isNormal
  rw [hoperator, Bool.false_and, if_neg Bool.false_ne_true, if_neg hif]

theorem isNormal_operator_iff (hkind : n.kind.isOperator = true) :
    isNormal n = true ↔ n.text? "operator" = some "void" ∨
      ∀ v, constant? n = some v → (Expression.ofValue v).same n = true := by
  have hif : n.kind ≠ .ifStatement := by
    intro h
    rw [h] at hkind
    cases hkind
  unfold isNormal
  rw [hkind, Bool.true_and]
  by_cases hvoid : n.text? "operator" = some "void"
  · simp [hvoid, hif]
  · cases hvalue : constant? n with
    | none => simp [hvoid]
    | some v => simp [hvoid]

theorem isNormal_if_iff (hkind : n.kind = .ifStatement) :
    isNormal n = true ↔ ∀ v, (n.child? "test").bind constant? = some v →
      (branches n v.truthy).2.any declaresVar = true := by
  have hoperator : n.kind.isOperator = false := by rw [hkind]; rfl
  unfold isNormal
  rw [hoperator, Bool.false_and, if_neg Bool.false_ne_true, if_pos hkind]
  cases (n.child? "test").bind constant? with
  | none => simp
  | some v => simp

/-! ## Normal trees -/

/-- At no node that a traversal meets there is anything to fold. -/
def AllNormal (n : Node) : Prop := ∀ o ∈ n.occurrences, isNormal o.node = true

/-- In what a field holds there is nothing to fold. -/
def FieldNormal : Field Node → Prop
  | .child c => AllNormal c
  | .list slots => ∀ c, some c ∈ slots → AllNormal c
  | .value _ => True

theorem allNormal_iff : AllNormal n ↔ isNormal n = true ∧
    ∀ step c, step.field ∈ n.kind.fields → n.step? step = some c → AllNormal c :=
  forall_occurrences_iff (P := fun m => isNormal m = true)

/-- What is one step down is normal, if the fields are. -/
theorem allNormal_of_step? {step : Step}
    (h : ∀ content, n.get? step.field = some content → FieldNormal content)
    (hstep : n.step? step = some c) : AllNormal c := by
  obtain ⟨field, index⟩ := step
  cases index with
  | none => exact h _ (child?_eq_some_iff.mp hstep)
  | some i =>
      obtain ⟨slots, hget, hslot⟩ := step?_slot_eq_some_iff.mp hstep
      exact h _ hget c (List.mem_of_getElem? hslot)

theorem AllNormal.step (h : AllNormal n) {step : Step} (hfield : step.field ∈ n.kind.fields)
    (hstep : n.step? step = some c) : AllNormal c :=
  (allNormal_iff.mp h).2 step c hfield hstep

theorem AllNormal.field (h : AllNormal n) (hname : name ∈ n.kind.fields)
    (hget : n.get? name = some content) : FieldNormal content := by
  cases content with
  | child c =>
      have hstep : n.step? ⟨name, none⟩ = some c := child?_eq_some_iff.mpr hget
      exact h.step hname hstep
  | value json => trivial
  | list slots =>
      intro c hc
      obtain ⟨i, hi⟩ := List.getElem?_of_mem hc
      have hstep : n.step? ⟨name, some i⟩ = some c := step?_slot_eq_some_iff.mpr ⟨slots, hget, hi⟩
      exact h.step hname hstep

/-- A tree is normal if its root and its fields are. -/
theorem allNormal_of_fields (hself : isNormal n = true)
    (hfields : ∀ name ∈ n.kind.fields, ∀ content, n.get? name = some content → FieldNormal content) :
    AllNormal n := by
  apply allNormal_iff.mpr
  refine ⟨hself, ?_⟩
  intro step c hfield hstep
  exact allNormal_of_step? (hfields _ hfield) hstep

theorem AllNormal.self (h : AllNormal n) : isNormal n = true := (allNormal_iff.mp h).1

theorem AllNormal.children (h : AllNormal n) (hname : name ∈ n.kind.fields)
    (hc : c ∈ n.children name) : AllNormal c := by
  unfold Node.children at hc
  cases hslots : n.slots? name with
  | none => simp [hslots] at hc
  | some slots =>
      have hslot : some c ∈ slots := by simpa [hslots] using hc
      exact h.field hname (slots?_eq_some_iff.mp hslots) c hslot

theorem allNormal_set (h : AllNormal n) (hself : isNormal (n.set name content) = true)
    (hcontent : FieldNormal content) : AllNormal (n.set name content) := by
  apply allNormal_of_fields hself
  intro other hother old hget
  by_cases heq : other = name
  · subst heq
    rw [get?_set_self] at hget
    cases hget
    exact hcontent
  · rw [get?_set_of_ne heq] at hget
    exact h.field hother hget

/-! ## Constants -/

/-- The node is an identifier or a literal, which hold no nodes. -/
def isAtom (n : Node) : Bool := n.kind == .identifier || n.kind == .literal

theorem isAtom_iff : isAtom n = true ↔ n.kind = .identifier ∨ n.kind = .literal := by simp [isAtom]

/-- The optimizer has nothing to do at an identifier or a literal, nor below it. -/
theorem kind_of_isAtom (h : isAtom n = true) :
    n.kind.isOperator = false ∧ n.kind ≠ .expressionStatement ∧ n.kind ≠ .ifStatement ∧
      n.kind ≠ .blockStatement ∧ n.kind.fields = [] := by
  rcases isAtom_iff.mp h with hkind | hkind <;> rw [hkind] <;> decide

theorem allNormal_of_isAtom (h : isAtom n = true) : AllNormal n := by
  obtain ⟨hoperator, _, hif, _, hfields⟩ := kind_of_isAtom h
  apply allNormal_of_fields (isNormal_of_other hoperator hif)
  intro name hname
  rw [hfields] at hname
  cases hname

theorem isAtom_ofMagnitude (x : Float) : isAtom (Expression.ofMagnitude x) = true := by
  unfold Expression.ofMagnitude
  split <;> rfl

/-- The expression for a value is an identifier or a literal, or the negation of one. -/
theorem ofValue_cases (h : v.isPrimitive = true) :
    isAtom (Expression.ofValue v) = true ∨
      ∃ x : Float, v = .number x ∧ x.isNaN = false ∧
        Expression.ofValue v = Expression.negation (Expression.ofMagnitude (-x)) := by
  cases v with
  | array items => cases h
  | object entries => cases h
  | number x =>
      show isAtom (Expression.ofNumber x) = true ∨ ∃ y : Float, _ ∧ _ ∧ Expression.ofNumber x = _
      unfold Expression.ofNumber
      split
      · exact .inl rfl
      · rename_i hnan
        split
        · exact .inr ⟨x, rfl, Bool.eq_false_iff.mpr hnan, rfl⟩
        · exact .inl (isAtom_ofMagnitude x)
  | _ => exact .inl rfl

theorem same_numberJson {x : Float} (h : x.isNaN = false) :
    (Expression.numberJson x).same (Expression.numberJson x) = true := by
  have hint : ∀ i : Int, (Json.int i).same (Json.int i) = true := fun i => beq_self_eq_true i
  have hfloat : (Json.number (.float x)).same (Json.number (.float x)) = true := Double.beq_self h
  unfold Expression.numberJson
  split
  · rfl
  · rfl
  · exact hint 0
  · exact hfloat
  · split
    · split
      · exact hint _
      · exact hfloat
    · exact hfloat

theorem same_ofMagnitude {x : Float} (h : x.isNaN = false) :
    (Expression.ofMagnitude x).same (Expression.ofMagnitude x) = true := by
  unfold Expression.ofMagnitude
  split
  · simp [Expression.identifier, Node.same, sameFields, sameField, Json.same]
  · simp [Expression.literal, Expression.literalParts, Node.same, sameFields, sameField, Json.same,
      same_numberJson h]

theorem same_negation (h : c.same c = true) :
    (Expression.negation c).same (Expression.negation c) = true := by
  simp [Expression.negation, Node.same, sameFields, sameField, Json.same, h]

theorem allNormal_ofValue (h : v.isPrimitive = true) : AllNormal (Expression.ofValue v) := by
  rcases ofValue_cases h with hatom | ⟨x, rfl, hnan, heq⟩
  · exact allNormal_of_isAtom hatom
  · have hvalue : constant? (Expression.ofValue (.number x)) = some (.number x) := constant?_ofValue h
    rw [heq] at hvalue ⊢
    apply allNormal_of_fields
    · apply (isNormal_operator_iff rfl).mpr
      right
      intro v hv
      rw [hvalue] at hv
      cases hv
      rw [heq]
      exact same_negation (same_ofMagnitude ((Double.isNaN_neg x).trans hnan))
    · intro name hname content hget
      cases List.mem_singleton.mp hname
      cases hget
      exact allNormal_of_isAtom (isAtom_ofMagnitude _)

/-! ## Operators that stay -/

theorem kind_eq_of_same {a : Node} (h : a.same n = true) : a.kind = n.kind := by
  obtain ⟨kind, fields⟩ := a
  obtain ⟨kind', fields'⟩ := n
  rw [Node.same, Bool.and_eq_true] at h
  exact beq_iff_eq.mp h.1

theorem sameFields_nil {fields : List (String × Field Node)} (h : sameFields [] fields = true) :
    fields = [] := by
  cases fields with
  | nil => rfl
  | cons entry rest => simp [sameFields] at h

theorem sameFields_cons {fields rest : List (String × Field Node)}
    (h : sameFields ((name, content) :: rest) fields = true) :
    ∃ content' rest', fields = (name, content') :: rest' ∧ sameField content content' = true ∧
      sameFields rest rest' = true := by
  cases fields with
  | nil => simp [sameFields] at h
  | cons entry rest' =>
      obtain ⟨name', content'⟩ := entry
      rw [sameFields, Bool.and_eq_true, Bool.and_eq_true, beq_iff_eq] at h
      obtain ⟨⟨rfl, hcontent⟩, hrest⟩ := h
      exact ⟨content', rest', rfl, hcontent, hrest⟩

theorem sameField_child {a : Node} (h : sameField (.child a) content = true) :
    ∃ c, content = .child c ∧ a.same c = true := by
  cases content with
  | child c => exact ⟨c, rfl, by rwa [sameField] at h⟩
  | list slots => simp [sameField] at h
  | value json => simp [sameField] at h

/-- What equals a negation is one. -/
theorem fields_of_same_negation {a : Node} (h : (Expression.negation a).same n = true) :
    n.kind = .unaryExpression ∧ ∃ operator sign c,
      n.fields = [("operator", operator), ("prefix", sign), ("argument", .child c)] ∧
        c.kind = a.kind := by
  refine ⟨(kind_eq_of_same h).symm, ?_⟩
  obtain ⟨kind, fields⟩ := n
  rw [Expression.negation, Node.same, Bool.and_eq_true] at h
  obtain ⟨operator, afterOperator, rfl, _, hafter⟩ := sameFields_cons h.2
  obtain ⟨sign, afterSign, rfl, _, hafter⟩ := sameFields_cons hafter
  obtain ⟨argument, rest, heq, hargument, hrest⟩ := sameFields_cons hafter
  obtain ⟨c, hchild, hc⟩ := sameField_child hargument
  refine ⟨operator, sign, c, ?_, (kind_eq_of_same hc).symm⟩
  rw [heq, hchild, sameFields_nil hrest]

/-- An operator that is the expression for its value is the negation of an identifier or a literal. -/
theorem fields_of_same (hkind : n.kind.isOperator = true) (hv : v.isPrimitive = true)
    (h : (Expression.ofValue v).same n = true) :
    n.kind = .unaryExpression ∧ ∃ operator sign c,
      n.fields = [("operator", operator), ("prefix", sign), ("argument", .child c)] ∧
        isAtom c = true := by
  rcases ofValue_cases hv with hatom | ⟨x, _, _, heq⟩
  · rw [← kind_eq_of_same h, (kind_of_isAtom hatom).1] at hkind
    cases hkind
  · rw [heq] at h
    obtain ⟨hunary, operator, sign, c, hfields, hc⟩ := fields_of_same_negation h
    refine ⟨hunary, operator, sign, c, hfields, ?_⟩
    have hatom := isAtom_ofMagnitude (-x)
    unfold isAtom at hatom ⊢
    rw [hc]
    exact hatom

theorem reduce_of_isAtom (h : isAtom c = true) (s : Spot) : (reduce s c).2 = c := by
  obtain ⟨hoperator, hstatement, hif, hblock, hfields⟩ := kind_of_isAtom h
  have hreduced : reduceFields reduce s c = c := by
    unfold reduceFields
    rw [hfields]
    rfl
  rw [reduce_eq, folded?_of_not_isOperator hoperator, directive?_of_ne hstatement,
    shorten_of_ne hstatement, hreduced, settle_of_other hif hblock]
  simp

/-- An operator that is the expression for its value stays as it is. -/
theorem reduceFields_of_same (hkind : n.kind.isOperator = true) (hv : v.isPrimitive = true)
    (h : (Expression.ofValue v).same n = true) (s : Spot) : reduceFields reduce s n = n := by
  obtain ⟨hunary, operator, sign, c, hfields, hatom⟩ := fields_of_same hkind hv h
  have hget : n.get? "argument" = some (.child c) := by
    unfold get?
    rw [hfields]
    rfl
  unfold reduceFields
  rw [hunary]
  show reduceField reduce s n n "argument" = n
  unfold reduceField
  rw [hget]
  dsimp only
  rw [reduceContent, reduce_of_isAtom hatom]
  exact set_eq_self hget

/-- What is not folded has no value then that it did not have before. -/
theorem isNormal_reduceFields (h : seated place n = true) (hif : n.kind ≠ .ifStatement)
    (hfolded : folded? n = none) (s : Spot) : isNormal (reduceFields reduce s n) = true := by
  cases hkind : n.kind.isOperator with
  | false =>
      apply isNormal_of_other
      · rw [kind_reduceFields, hkind]
      · rw [kind_reduceFields]
        exact hif
  | true =>
      apply (isNormal_operator_iff (by rw [kind_reduceFields, hkind])).mpr
      rw [text?_reduceFields]
      by_cases hvoid : n.text? "operator" = some "void"
      · exact .inl hvoid
      · right
        intro v hv
        have hkeeps : constant? (reduceFields reduce s n) = constant? n :=
          constant?_reduceFields h fun c inner t _ hc hif => constant?_reduce hc hif t
        rw [hkeeps] at hv
        have hsame : (Expression.ofValue v).same n = true := by
          unfold folded? at hfolded
          rw [hkind, hv] at hfolded
          simpa [hvoid] using hfolded
        rw [reduceFields_of_same hkind (isPrimitive_of_evaluate? hv) hsame]
        exact hsame

/-! ## Leaving -/

theorem ne_init_of_isOperator (hkind : n.kind.isOperator = true) (hname : name ∈ n.kind.fields) :
    name ≠ "init" := by
  rintro rfl
  rcases Kind.isOperator_iff.mp hkind with h | h | h <;>
    · rw [h] at hname
      exact absurd hname (by decide)

/-- A declarator keeps what is normal about it when it loses its value. A declarator with a name is no
negation, so that it is not the expression for a value. -/
theorem isNormal_setInit (h : isNormal n = true) {id : Node} (hid : n.child? "id" = some id) (json : Json) :
    isNormal (n.setValue "init" json) = true := by
  have hchild : ∀ name ≠ "init", (n.setValue "init" json).child? name = n.child? name := by
    intro name hname
    unfold child?
    rw [show (n.setValue "init" json).get? name = n.get? name from get?_set_of_ne hname]
  have htext : (n.setValue "init" json).text? "operator" = n.text? "operator" := by
    unfold text? value?
    rw [show (n.setValue "init" json).get? "operator" = n.get? "operator" from
      get?_set_of_ne (by decide)]
  cases hkind : n.kind.isOperator with
  | true =>
      apply (isNormal_operator_iff (n := n.setValue "init" json) hkind).mpr
      rw [htext]
      apply ((isNormal_operator_iff hkind).mp h).imp_right
      intro hsame v hv
      have hvalue : constant? (n.setValue "init" json) = constant? n := by
        apply constant?_operator_congr hkind (kind_set ..) htext
        intro name hname
        exact congrArg (Option.bind · constant?) (hchild name (ne_init_of_isOperator hkind hname))
      rw [hvalue] at hv
      obtain ⟨_, operator, sign, c, hfields, _⟩ :=
        fields_of_same hkind (isPrimitive_of_evaluate? hv) (hsame v hv)
      have hget := child?_eq_some_iff.mp hid
      unfold get? at hget
      rw [hfields] at hget
      cases hget
  | false =>
      by_cases hif : n.kind = .ifStatement
      · have hbranches : branches (n.setValue "init" json) = branches n := by
          unfold branches
          rw [hchild "consequent" (by decide), hchild "alternate" (by decide)]
        apply (isNormal_if_iff (n := n.setValue "init" json) hif).mpr
        rw [hchild "test" (by decide), hbranches]
        exact (isNormal_if_iff hif).mp h
      · exact isNormal_of_other hkind hif

theorem allNormal_unreachableRemainder? (hn : AllNormal n) (h : unreachableRemainder? n = some m) :
    AllNormal m := by
  rcases unreachableRemainder?_eq_some h with rfl | ⟨hkind, declarators, hslots, hplain, rfl⟩
  · exact hn
  · have hfield : "declarations" ∈ n.kind.fields := by rw [hkind]; decide
    apply allNormal_set hn
    · exact isNormal_of_other (by rw [kind_set, hkind]; rfl) (by rw [kind_set, hkind]; decide)
    · intro d hd
      obtain ⟨slot, hslot, hd⟩ := List.mem_map.mp hd
      obtain ⟨old, rfl, rfl⟩ := Option.map_eq_some_iff.mp hd
      have hold : AllNormal old := hn.field hfield (slots?_eq_some_iff.mp hslots) old hslot
      have hnamed := List.all_eq_true.mp hplain old (List.mem_filterMap.mpr ⟨_, hslot, rfl⟩)
      obtain ⟨id, hid, _⟩ := (Option.any_eq_true _ _).mp hnamed
      exact allNormal_set hold (isNormal_setInit hold.self hid .null) trivial

theorem allNormal_prune (h : AllNormal n) (hkind : n.kind = .blockStatement) : AllNormal (prune n) := by
  unfold prune
  cases hslots : n.slots? "body" with
  | none => exact h
  | some slots =>
      have hold : ∀ c, some c ∈ slots → AllNormal c :=
        h.field (by rw [hkind]; decide) (slots?_eq_some_iff.mp hslots)
      apply allNormal_set h
      · exact isNormal_of_other (by rw [kind_set, hkind]; rfl) (by rw [kind_set, hkind]; decide)
      · intro c hc
        rcases mem_pruneStatements hc with hc | ⟨old, hc, hremainder⟩
        · exact hold c hc
        · exact allNormal_unreachableRemainder? (hold old hc) hremainder

/-- Of a node that is kept only the node remains. -/
theorem allNormal_of_keep (h : AllNormal n) : ∀ m ∈ remains (.keep, n), AllNormal m := by
  intro m hm
  cases List.mem_singleton.mp hm
  exact h

section

variable (hfields : ∀ name ∈ n.kind.fields, ∀ content, n.get? name = some content → FieldNormal content)
include hfields

theorem allNormal_settleIf (hkind : n.kind = .ifStatement) (listed : Bool) :
    ∀ m ∈ remains (settleIf listed n), AllNormal m := by
  have hbranch : ∀ {test m}, (branches n test).1 = some m → AllNormal m := by
    intro test m hm
    cases test with
    | true => exact hfields "consequent" (by rw [hkind]; decide) _ (child?_eq_some_iff.mp hm)
    | false => exact hfields "alternate" (by rw [hkind]; decide) _ (child?_eq_some_iff.mp hm)
  unfold settleIf
  cases htest : (n.child? "test").bind constant? with
  | none =>
      apply allNormal_of_keep
      apply allNormal_of_fields _ hfields
      apply (isNormal_if_iff hkind).mpr
      intro v hv
      rw [htest] at hv
      cases hv
  | some test =>
      dsimp only
      split
      · rename_i huntaken
        apply allNormal_of_keep
        apply allNormal_of_fields _ hfields
        apply (isNormal_if_iff hkind).mpr
        intro v hv
        rw [htest] at hv
        cases hv
        exact huntaken
      · cases htaken : (branches n test.truthy).1 with
        | none =>
            cases listed with
            | true =>
                intro m hm
                cases hm
            | false =>
                apply allNormal_of_keep
                apply allNormal_of_fields rfl
                intro name hname
                cases hname
        | some statement =>
            have hstatement := hbranch htaken
            dsimp only
            split
            · rename_i hblock
              simp only [Bool.and_eq_true, beq_iff_eq] at hblock
              rw [remains_flatten]
              intro m hm
              exact hstatement.children (by rw [hblock.2.1]; decide) hm
            · exact allNormal_of_keep hstatement

/-- What is left of a node with normal fields is normal. -/
theorem allNormal_settle (hself : n.kind ≠ .ifStatement → isNormal n = true) (listed : Bool) :
    ∀ m ∈ remains (settle listed n), AllNormal m := by
  unfold settle
  split
  · rename_i hkind
    exact allNormal_settleIf hfields hkind listed
  · rename_i hkind
    have hn : AllNormal n := allNormal_of_fields (hself (by rw [hkind]; decide)) hfields
    exact allNormal_of_keep (allNormal_prune hn hkind)
  · rename_i hif _
    exact allNormal_of_keep (allNormal_of_fields (hself hif) hfields)

end

/-! ## The whole walk -/

theorem fieldNormal_reduceContent (h : standsField Place.seat place content = true)
    (ih : ∀ c t, c.size ≤ sizeOfField content → seated place c = true →
      ∀ m ∈ remains (reduce t c), AllNormal m) (kind : Kind) :
    FieldNormal (reduceContent reduce s kind name content) := by
  cases content with
  | child c =>
      have hkeep : (reduce ⟨false, false, isBodyField kind name⟩ c).1 = .keep := reduce_unlisted rfl rfl c
      apply ih c ⟨false, false, isBodyField kind name⟩ (Nat.le_refl _) h
      rw [remains_of_keep hkeep]
      exact List.mem_singleton_self _
  | value json => trivial
  | list slots =>
      intro m hm
      obtain ⟨t, c, hc, hm⟩ := mem_reduceSlots hm
      apply ih c t (size_le_of_mem_slots hc) (standsSlots_iff.mp h c hc)
      exact List.mem_filterMap.mpr ⟨some m, hm, rfl⟩

/-- **What stands in the place of a reduced node is normal.** -/
theorem allNormal_reduce (h : seated place n = true) (s : Spot) :
    ∀ m ∈ remains (reduce s n), AllNormal m := by
  induction hsize : n.size using Nat.strongRecOn generalizing n place s with
  | ind size ih =>
      rw [reduce_eq]
      cases hfolded : folded? n with
      | some constant =>
          obtain ⟨_, v, hv, rfl⟩ := folded?_eq_some hfolded
          exact allNormal_of_keep (allNormal_ofValue (isPrimitive_of_evaluate? hv))
      | none =>
          dsimp only
          split
          · intro m hm
            cases hm
          · apply allNormal_settle
            · intro name hname content hget
              rw [kind_reduceFields] at hname
              rw [get?_reduceFields, if_pos hname] at hget
              obtain ⟨old, hold, rfl⟩ := Option.map_eq_some_iff.mp hget
              obtain ⟨inner, hseat⟩ := exists_seat place hname
              apply fieldNormal_reduceContent (standsField_of_get? (seated_shorten h) hold hseat)
              intro c t hc hseated
              have hlt : c.size < n.size := by
                have := sizeOfField_lt_of_get? hold
                rw [size_shorten] at this
                omega
              exact ih c.size (hsize ▸ hlt) hseated t rfl
            · rw [kind_reduceFields, kind_shorten]
              intro hif
              by_cases hstatement : n.kind = .expressionStatement
              · apply isNormal_of_other
                · rw [kind_reduceFields, kind_shorten, hstatement]
                  rfl
                · rw [kind_reduceFields, kind_shorten]
                  exact hif
              · rw [shorten_of_ne hstatement]
                exact isNormal_reduceFields h hif hfolded s

/-- The program returns an expression, and nothing else. -/
def Returns (n e : Node) : Prop :=
  n.kind = .program ∧ ∃ r, n.slots? "body" = some [some r] ∧ r.kind = .returnStatement ∧
    r.child? "argument" = some e

/-- The returned expression is reduced, and that is all. -/
theorem returns_reduce {e : Node} (h : Returns n e) :
    ∃ t, Returns (reduce ⟨false, false, false⟩ n).2 (reduce t e).2 := by
  obtain ⟨hkind, r, hbody, hreturn, he⟩ := h
  have hstatement : r.kind ≠ .expressionStatement := by rw [hreturn]; decide
  have hkept : reduce lone r = (.keep, reduceFields reduce lone r) := by
    rw [reduce_eq, folded?_of_not_isOperator (by rw [hreturn]; rfl), directive?_of_ne hstatement,
      shorten_of_ne hstatement, settle_of_other (by rw [kind_reduceFields, hreturn]; decide)
        (by rw [kind_reduceFields, hreturn]; decide)]
    simp
  have hslots : reduceSlots reduce false true [some r] = [some (reduceFields reduce lone r)] := by
    show (reduce lone r).1.slots (some (reduce lone r).2) ++ [] = _
    rw [hkept]
    rfl
  refine ⟨⟨false, false, false⟩, ?_⟩
  rw [reduce_program hkind]
  refine ⟨by rw [kind_reduceFields, hkind], reduceFields reduce lone r, ?_, ?_, ?_⟩
  · rw [slots?_reduceFields (by rw [hkind]; decide), hbody, hkind]
    exact congrArg some hslots
  · rw [kind_reduceFields, hreturn]
  · rw [child?_reduceFields (by rw [hreturn]; decide), he, hreturn]
    rfl

theorem seated_of_returns {e : Node} (h : Returns n e) (hn : seated .plain n = true) :
    seated .plain e = true := by
  obtain ⟨hkind, r, hbody, hreturn, he⟩ := h
  have hr : seated .plain r = true :=
    stands_slot hn (slots?_eq_some_iff.mp hbody) (by rw [hkind]; rfl) (List.mem_singleton_self _)
  exact stands_child hr he (by rw [hreturn]; rfl)

/-- **One walk folds all that can be folded**, and gives or takes no value of an expression. -/
theorem optimize_folds_out (n : Node) (hkind : n.kind = .program) (hn : seated .plain n = true) :
    ∃ m, optimize n = .ok m ∧ (∀ o ∈ m.occurrences, isNormal o.node = true) ∧
      ∀ e, Returns n e → e.kind ≠ .ifStatement → ∃ e', Returns m e' ∧ constant? e' = constant? e := by
  refine ⟨_, optimize_eq_reduce hkind hn, ?_, ?_⟩
  · apply allNormal_reduce hn ⟨false, false, false⟩
    rw [reduce_program hkind]
    exact List.mem_singleton_self _
  · intro e he hif
    obtain ⟨t, hreturns⟩ := returns_reduce he
    exact ⟨_, hreturns, constant?_reduce (seated_of_returns he hn) hif t⟩

/-! ### Programs to look at -/

/-- `return` with an expression. -/
def returning (e : Node) : Node := ⟨.returnStatement, [("argument", .child e)]⟩

/-- `undefined && f(undefined && true)`. -/
def undecidedCall : Node :=
  shortCircuit.set "right" (.child ⟨.callExpression,
    [("callee", .child (Expression.identifier "f")), ("arguments", .list [some shortCircuit])]⟩)

/-- The program returns a constant, although a call stands in it. -/
theorem optimize_folds_out_undecidedCall :
    (programOf [returning undecidedCall]).kind = .program ∧
      seated .plain (programOf [returning undecidedCall]) = true ∧
      Returns (programOf [returning undecidedCall]) undecidedCall ∧
      undecidedCall.kind ≠ .ifStatement ∧
      ∃ m, optimize (programOf [returning undecidedCall]) = .ok m ∧
        (∀ o ∈ m.occurrences, isNormal o.node = true) ∧
        ∃ e', Returns m e' ∧ constant? e' = constant? undecidedCall := by
  have hreturns : Returns (programOf [returning undecidedCall]) undecidedCall := ⟨rfl, _, rfl, rfl, rfl⟩
  have hseated : seated .plain (programOf [returning undecidedCall]) = true := by decide +kernel
  obtain ⟨m, hm, hnormal, hkept⟩ := optimize_folds_out _ rfl hseated
  exact ⟨rfl, hseated, hreturns, by decide, m, hm, hnormal, hkept undecidedCall hreturns (by decide)⟩

/-- The optimized program has nothing to fold, and an expression that it returns has the value it had. -/
def FoldsOut (n : Node) : Prop :=
  ∃ m, optimize n = .ok m ∧ (∀ o ∈ m.occurrences, isNormal o.node = true) ∧
    ∀ e, Returns n e → ∃ e', Returns m e' ∧ constant? e' = constant? e

/-- A program that binds no name of a constant and is not folded out. -/
def StaysFoldable (n : Node) : Prop :=
  n.kind = .program ∧ (∀ o ∈ n.occurrences, ∀ b ∈ o.visibleBindings, namesConstant b.node = false) ∧
    ¬ FoldsOut n

/-- There is nothing to fold in the optimized program. -/
def normalAfter (n : Node) : Bool :=
  match optimize n with
  | .ok m => m.occurrences.all fun o => isNormal o.node
  | .error _ => false

/-- The value of the expression that a program returns. -/
def returnedValue? (n : Node) : Option Value :=
  (n.at? [⟨"body", some 0⟩, ⟨"argument", none⟩]).bind constant?

/-- A value is returned by the optimized program iff one is by the program. -/
def valueAfter (n : Node) : Bool :=
  match optimize n with
  | .ok m => (returnedValue? m).isSome == (returnedValue? n).isSome
  | .error _ => false

theorem Returns.returnedValue?_eq {e : Node} (h : Returns n e) : returnedValue? n = constant? e := by
  obtain ⟨_, r, hbody, _, he⟩ := h
  have hstep : n.step? ⟨"body", some 0⟩ = some r :=
    step?_slot_eq_some_iff.mpr ⟨[some r], slots?_eq_some_iff.mp hbody, rfl⟩
  have hargument : r.step? ⟨"argument", none⟩ = some e := he
  unfold returnedValue?
  rw [at?_cons, hstep, Option.bind_some, at?_cons, hargument]
  rfl

theorem FoldsOut.normalAfter (h : FoldsOut n) : normalAfter n = true := by
  obtain ⟨m, hm, hnormal, _⟩ := h
  unfold Optimize.normalAfter
  rw [hm]
  exact List.all_eq_true.mpr hnormal

theorem FoldsOut.valueAfter {e : Node} (h : FoldsOut n) (he : Returns n e) : valueAfter n = true := by
  obtain ⟨m, hm, _, hkept⟩ := h
  obtain ⟨e', he', hvalue⟩ := hkept e he
  unfold Optimize.valueAfter
  rw [hm, he.returnedValue?_eq]
  dsimp only
  rw [he'.returnedValue?_eq, hvalue]
  exact beq_self_eq_true _

theorem staysFoldable_of_normalAfter (hkind : n.kind = .program)
    (hbound : ∀ o ∈ n.occurrences, ∀ b ∈ o.visibleBindings, namesConstant b.node = false)
    (h : normalAfter n = false) : StaysFoldable n :=
  ⟨hkind, hbound, fun hfolds => Bool.eq_false_iff.mp h hfolds.normalAfter⟩

theorem staysFoldable_of_valueAfter {e : Node} (he : Returns n e)
    (hbound : ∀ o ∈ n.occurrences, ∀ b ∈ o.visibleBindings, namesConstant b.node = false)
    (h : valueAfter n = false) : StaysFoldable n :=
  ⟨he.1, hbound, fun hfolds => Bool.eq_false_iff.mp h (hfolds.valueAfter he)⟩

/-- `f` applied to an expression, as a statement. -/
def applying (e : Node) : Node :=
  discarding ⟨.callExpression,
    [("callee", .child (Expression.identifier "f")), ("arguments", .list [some e])]⟩

/-- `!` on an operand. -/
def negating (e : Node) : Node :=
  ⟨.unaryExpression, [("operator", .value (.string "!")), ("argument", .child e)]⟩

/-- An operator on two operands. -/
def operation (kind : Kind) (operator : String) (left right : Node) : Node :=
  ⟨kind, [("operator", .value (.string operator)), ("left", .child left), ("right", .child right)]⟩

/-- A template with one piece of text. -/
def template (quasi : Node) (expressions : List Node) : Node :=
  ⟨.templateLiteral, [("quasis", .list [some quasi]), ("expressions", .list (expressions.map some))]⟩

/-- The node with the text of a template. -/
def withText (n : Node) : Node := n.setValue "value" (.object [("cooked", .string "a")])

/-- `if (true) true`. -/
def alwaysTrue : Node := always (Expression.literal (.bool true))

/-- **The places count.** Where an operator or an `if` stands for a pattern, or an `if` for a declarator, a
specifier or a case, it is reduced to something that binds `undefined`, and what follows is not folded. Where an
`if` stands for an operand, in parentheses or in a template, an operator gains a value after it was looked
at. Where an operator stands for a piece of a template a returned value is lost, and where an `if` is returned
one is gained. -/
theorem program_stays_foldable :
    (StaysFoldable (programOf [declaringPattern shortCircuit, calling]) ∧
      StaysFoldable (programOf [declaringPattern (always (Expression.identifier "undefined")), calling]) ∧
      StaysFoldable (programOf [declaring
        (always ⟨.other "Declarator", [("id", .child (Expression.identifier "undefined"))]⟩), calling]) ∧
      StaysFoldable (programOf [⟨.importDeclaration, [("specifiers", .list
        [some (always ⟨.other "Specifier", [("local", .child (Expression.identifier "undefined"))]⟩)])]⟩,
        calling]) ∧
      StaysFoldable (programOf [⟨.switchStatement,
        [("discriminant", .child (Expression.identifier "x")),
         ("cases", .list
          [some (always ⟨.other "Case", [("consequent", .list
            [some (declaringPattern (Expression.identifier "undefined"))])]⟩),
           some ⟨.switchCase, [("consequent", .list [some calling])]⟩])]⟩])) ∧
    (StaysFoldable (programOf [applying (negating alwaysTrue)]) ∧
      StaysFoldable (programOf [applying
        (operation .binaryExpression "===" alwaysTrue (Expression.literal (.bool true)))]) ∧
      StaysFoldable (programOf [applying
        (operation .logicalExpression "&&" alwaysTrue (Expression.literal (.bool true)))]) ∧
      StaysFoldable (programOf [applying
        (negating ⟨.parenthesizedExpression, [("expression", .child alwaysTrue)]⟩)]) ∧
      StaysFoldable (programOf [applying (negating (template (withText ⟨.templateElement, []⟩)
        [alwaysTrue.set "test" (.child (Expression.literal (.bool false)))]))]) ∧
      StaysFoldable (programOf [applying
        (negating (template (always (withText ⟨.templateElement, []⟩)) []))])) ∧
    StaysFoldable (programOf [returning (template (withText shortCircuit) [])]) ∧
    StaysFoldable (programOf [returning alwaysTrue]) := by
  refine ⟨⟨?_, ?_, ?_, ?_, ?_⟩, ⟨?_, ?_, ?_, ?_, ?_, ?_⟩, ?_, ?_⟩
  · exact staysFoldable_of_normalAfter rfl (by decide +kernel) (by decide +kernel)
  · exact staysFoldable_of_normalAfter rfl (by decide +kernel) (by decide +kernel)
  · exact staysFoldable_of_normalAfter rfl (by decide +kernel) (by decide +kernel)
  · exact staysFoldable_of_normalAfter rfl (by decide +kernel) (by decide +kernel)
  · exact staysFoldable_of_normalAfter rfl (by decide +kernel) (by decide +kernel)
  · exact staysFoldable_of_normalAfter rfl (by decide +kernel) (by decide +kernel)
  · exact staysFoldable_of_normalAfter rfl (by decide +kernel) (by decide +kernel)
  · exact staysFoldable_of_normalAfter rfl (by decide +kernel) (by decide +kernel)
  · exact staysFoldable_of_normalAfter rfl (by decide +kernel) (by decide +kernel)
  · exact staysFoldable_of_normalAfter rfl (by decide +kernel) (by decide +kernel)
  · exact staysFoldable_of_normalAfter rfl (by decide +kernel) (by decide +kernel)
  · exact staysFoldable_of_valueAfter ⟨rfl, _, rfl, rfl, rfl⟩ (by decide +kernel) (by decide +kernel)
  · exact staysFoldable_of_valueAfter ⟨rfl, _, rfl, rfl, rfl⟩ (by decide +kernel) (by decide +kernel)

end Minifier.Optimize
