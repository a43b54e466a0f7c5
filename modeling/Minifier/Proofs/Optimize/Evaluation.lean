import Minifier.Proofs.Optimize.Reduction

/-!
# Reduction keeps values

A reduced expression has the value of the expression (`constant?_reduce`), and what is reduced to no
constant has none. The fields of a node are reduced one by one, with their opaque values left alone;
so the value of an operator changes only if that of an operand does.
-/

namespace Minifier.Optimize

open Node

variable {below : Spot → Node → Settled × Node} {s : Spot} {n c : Node} {name : String} {place : Place}

/-! ## Reading reduced fields -/

theorem value?_reduceFields (below : Spot → Node → Settled × Node) (s : Spot) (n : Node)
    (name : String) : (reduceFields below s n).value? name = n.value? name := by
  unfold value?
  rw [get?_reduceFields]
  split
  · cases n.get? name with
    | none => rfl
    | some content => cases content <;> rfl
  · rfl

theorem text?_reduceFields (below : Spot → Node → Settled × Node) (s : Spot) (n : Node)
    (name : String) : (reduceFields below s n).text? name = n.text? name := by
  unfold text?
  rw [value?_reduceFields]

theorem has_reduceFields (below : Spot → Node → Settled × Node) (s : Spot) (n : Node)
    (name : String) : (reduceFields below s n).has name = n.has name := by
  unfold has
  rw [get?_reduceFields]
  split
  · exact Option.isSome_map
  · rfl

theorem child?_reduceFields (hname : name ∈ n.kind.fields) :
    (reduceFields below s n).child? name
      = (n.child? name).map fun c => (below ⟨false, false, isBodyField n.kind name⟩ c).2 := by
  unfold child?
  rw [get?_reduceFields, if_pos hname]
  cases n.get? name with
  | none => rfl
  | some content => cases content <;> rfl

theorem slots?_reduceFields (hname : name ∈ n.kind.fields) :
    (reduceFields below s n).slots? name
      = (n.slots? name).map (reduceSlots below (isBodyField n.kind name) (s.opensBody n.kind)) := by
  unfold slots?
  rw [get?_reduceFields, if_pos hname]
  cases n.get? name with
  | none => rfl
  | some content => cases content <;> rfl

/-! ## Nodes that stay -/

/-- Leaving matters for `if`s and blocks only. -/
theorem settle_of_other (hif : n.kind ≠ .ifStatement) (hblock : n.kind ≠ .blockStatement)
    (listed : Bool) : settle listed n = (.keep, n) := by
  unfold settle
  split
  · exact absurd ‹_› hif
  · exact absurd ‹_› hblock
  · rfl

theorem settle_of_block (h : n.kind = .blockStatement) (listed : Bool) :
    settle listed n = (.keep, prune n) := by
  unfold settle
  rw [h]

theorem settle_of_ne_if (listed : Bool) (h : n.kind ≠ .ifStatement) :
    (settle listed n).1 = .keep := by
  unfold settle
  split
  · exact absurd ‹_› h
  · rfl
  · rfl

/-- What is no `if` and no directive stays. -/
theorem reduce_keep (hprologue : s.prologue = false) (h : n.kind ≠ .ifStatement) :
    (reduce s n).1 = .keep := by
  rw [reduce_eq, hprologue]
  split
  · rfl
  · exact settle_of_ne_if s.listed (by simpa using h)

/-- A list in which everything stays. -/
theorem reduceSlots_eq_map {slots : List (Option Node)} (body : Bool)
    (h : ∀ c, some c ∈ slots → c.kind ≠ .ifStatement) :
    reduceSlots reduce body false slots
      = slots.map fun slot => slot.map fun c => (reduce ⟨true, false, body⟩ c).2 := by
  induction slots with
  | nil => rfl
  | cons slot rest ih =>
      have hrest := ih fun c hc => h c (List.mem_cons_of_mem _ hc)
      cases slot with
      | none =>
          rw [reduceSlots, hrest]
          rfl
      | some c =>
          have hkeep : (reduce ⟨true, false, body⟩ c).1 = .keep :=
            reduce_keep rfl (h c (List.mem_cons_self ..))
          rw [reduceSlots, hkeep, Bool.false_and, hrest]
          rfl

/-- The children of a list in which everything stays. -/
theorem children_reduceFields (hname : name ∈ n.kind.fields) (hopens : s.opensBody n.kind = false)
    (h : ∀ c ∈ n.children name, c.kind ≠ .ifStatement) :
    (reduceFields reduce s n).children name
      = (n.children name).map fun c => (reduce ⟨true, false, isBodyField n.kind name⟩ c).2 := by
  unfold Node.children
  rw [slots?_reduceFields hname, hopens]
  unfold Node.children at h
  cases hslots : n.slots? name with
  | none => rfl
  | some slots =>
      have hkinds : ∀ c, some c ∈ slots → c.kind ≠ .ifStatement := by
        intro c hc
        apply h c
        rw [hslots]
        exact List.mem_filterMap.mpr ⟨some c, hc, rfl⟩
      rw [Option.map_some, Option.getD_some, Option.getD_some, reduceSlots_eq_map _ hkinds,
        List.filterMap_map, List.map_filterMap]
      rfl

/-! ## Values -/

theorem ne_if_of_allows (hplace : place ≠ .plain) (h : seated place n = true) :
    n.kind ≠ .ifStatement := fun hkind => hplace (plain_of_if h hkind)

/-- Writing nodes over nodes changes no opaque value. -/
theorem value?_set {old new : Field Node} {other : String} (h : n.get? other = some old)
    (hvalue : new.value? = old.value?) : (n.set other new).value? name = n.value? name := by
  unfold value?
  by_cases hname : name = other
  · subst hname
    rw [get?_set_self, h]
    exact hvalue
  · rw [get?_set_of_ne hname]

theorem value?_shorten : (shorten n).value? name = n.value? name := by
  by_cases h : n.kind = .expressionStatement ∧ discardsVoid n = true
  · obtain ⟨e, he, _⟩ := discardsVoid_iff.mp h.2
    rw [shorten_of_discardsVoid h.1 he h.2]
    exact value?_set (child?_eq_some_iff.mp he) rfl
  · rw [shorten_eq_self h]

theorem value?_settle (h : n.kind ≠ .ifStatement) (listed : Bool) :
    (settle listed n).2.value? name = n.value? name := by
  unfold settle
  split
  · exact absurd ‹_› h
  · show (prune n).value? name = _
    unfold prune
    cases hslots : n.slots? "body" with
    | none => rfl
    | some slots => exact value?_set (slots?_eq_some_iff.mp hslots) rfl
  · rfl

/-- The opaque values of what is neither an `if` nor an operator stay. -/
theorem value?_reduce (h : seated .quasi n = true) (s : Spot) :
    (reduce s n).2.value? name = n.value? name := by
  have hallows := allows_of_stands h
  simp only [Place.allows, Bool.and_eq_true, bne_iff_ne, Bool.not_eq_true'] at hallows
  rw [reduce_eq, folded?_of_not_isOperator hallows.2]
  dsimp only
  split
  · rfl
  · have hkind : (reduceFields reduce s (shorten n)).kind ≠ .ifStatement := by simpa using hallows.1
    rw [value?_settle hkind, value?_reduceFields, value?_shorten]

theorem templateValue?_reduceFields (hkind : n.kind = .templateLiteral) (h : seated place n = true) :
    templateValue? (reduceFields reduce s n) = templateValue? n := by
  have hexpressions : ∀ c ∈ n.children "expressions", seated .operand c = true := fun c hc =>
    stands_children h hc (by rw [hkind]; rfl)
  have hquasis : ∀ c ∈ n.children "quasis", seated .quasi c = true := fun c hc =>
    stands_children h hc (by rw [hkind]; rfl)
  have hopens : s.opensBody n.kind = false := by rw [hkind]; rfl
  unfold templateValue?
  rw [children_reduceFields (by rw [hkind]; decide) hopens fun c hc =>
      ne_if_of_allows (by decide) (hexpressions c hc),
    children_reduceFields (by rw [hkind]; decide) hopens fun c hc =>
      ne_if_of_allows (by decide) (hquasis c hc), List.isEmpty_map, List.head?_map]
  cases hhead : (n.children "quasis").head? with
  | none => rfl
  | some quasi =>
      have hquasi := hquasis quasi (List.mem_of_head? hhead)
      simp only [Option.map_some, Option.bind_eq_bind, Option.bind_some, value?_reduce hquasi]

/-- What an operator holds are operands. -/
theorem seat_of_isOperator (hoperator : n.kind.isOperator = true) (hname : name ∈ n.kind.fields) :
    place.seat n.kind name = some .operand := by
  rcases Kind.isOperator_iff.mp hoperator with hkind | hkind | hkind
  · rw [hkind] at hname ⊢
    cases List.mem_singleton.mp hname
    rfl
  · rw [hkind] at hname ⊢
    rcases List.mem_pair.mp hname with rfl | rfl <;> rfl
  · rw [hkind] at hname ⊢
    rcases List.mem_pair.mp hname with rfl | rfl <;> rfl

/-- The value of an operator is computed from its text and the values of its operands. -/
theorem constant?_operator_congr {m : Node} (hoperator : n.kind.isOperator = true)
    (hkind : m.kind = n.kind) (htext : m.text? "operator" = n.text? "operator")
    (hoperand : ∀ name ∈ n.kind.fields,
      (m.child? name).bind constant? = (n.child? name).bind constant?) :
    constant? m = constant? n := by
  rw [constant?_eq, constant?_eq]
  unfold valueFrom?
  rw [hkind]
  rcases Kind.isOperator_iff.mp hoperator with h | h | h
  · have hargument := hoperand "argument" (by rw [h]; decide)
    simp only [h, htext, hargument]
  · have hleft := hoperand "left" (by rw [h]; decide)
    have hright := hoperand "right" (by rw [h]; decide)
    simp only [h, htext, hleft, hright]
  · have hleft := hoperand "left" (by rw [h]; decide)
    have hright := hoperand "right" (by rw [h]; decide)
    simp only [h, htext, hleft, hright]

theorem constant?_reduceFields (h : seated place n = true)
    (ih : ∀ c inner t, c.size < n.size → seated inner c = true → c.kind ≠ .ifStatement →
      constant? (reduce t c).2 = constant? c) :
    constant? (reduceFields reduce s n) = constant? n := by
  have hoperand : ∀ name ∈ n.kind.fields, place.seat n.kind name = some .operand →
      ((reduceFields reduce s n).child? name).bind constant? = (n.child? name).bind constant? := by
    intro name hname hseat
    rw [child?_reduceFields hname]
    cases hchild : n.child? name with
    | none => rfl
    | some c =>
        have hc := stands_child h hchild hseat
        exact ih c .operand _ (size_child_lt hchild) hc (ne_if_of_allows (by decide) hc)
  cases hoperator : n.kind.isOperator with
  | true =>
      apply constant?_operator_congr hoperator (kind_reduceFields ..) (text?_reduceFields ..)
      intro name hname
      exact hoperand name hname (seat_of_isOperator hoperator hname)
  | false =>
      rw [constant?_eq, constant?_eq]
      unfold valueFrom?
      rw [kind_reduceFields]
      cases hkind : n.kind with
      | literal =>
          show literalValue? _ = literalValue? _
          unfold literalValue?
          rw [has_reduceFields, has_reduceFields, value?_reduceFields]
      | identifier =>
          show Option.bind (name? _) _ = _
          unfold name?
          rw [text?_reduceFields]
      | parenthesizedExpression =>
          exact hoperand "expression" (by rw [hkind]; decide) (by rw [hkind]; rfl)
      | templateLiteral => exact templateValue?_reduceFields hkind h
      | unaryExpression => rw [hkind] at hoperator; cases hoperator
      | binaryExpression => rw [hkind] at hoperator; cases hoperator
      | logicalExpression => rw [hkind] at hoperator; cases hoperator
      | _ => rfl

theorem constant?_of_statement (h : n.kind = .expressionStatement ∨ n.kind = .blockStatement) :
    constant? n = none := by
  rw [constant?_eq]
  unfold valueFrom?
  rcases h with h | h <;> rw [h]

theorem kind_settle (h : n.kind ≠ .ifStatement) (listed : Bool) :
    (settle listed n).2.kind = n.kind := by
  unfold settle
  split
  · exact absurd ‹_› h
  · exact kind_prune n
  · rfl

/-- **A reduced expression has the value of the expression.** -/
theorem constant?_reduce (h : seated place n = true) (hkind : n.kind ≠ .ifStatement) (s : Spot) :
    constant? (reduce s n).2 = constant? n := by
  induction hsize : n.size using Nat.strongRecOn generalizing n place s with
  | ind size ih =>
      rw [reduce_eq]
      split
      · rename_i constant hfolded
        obtain ⟨_, v, hv, rfl⟩ := folded?_eq_some hfolded
        rw [hv]
        exact constant?_ofValue (isPrimitive_of_evaluate? hv)
      · split
        · rfl
        · by_cases hstatement : n.kind = .expressionStatement ∨ n.kind = .blockStatement
          · have hsettled : (settle s.listed (reduceFields reduce s (shorten n))).2.kind = n.kind := by
              rw [kind_settle (by simpa using hkind)]
              simp
            rw [constant?_of_statement hstatement,
              constant?_of_statement (by rw [hsettled]; exact hstatement)]
          · obtain ⟨hexpression, hblock⟩ := not_or.mp hstatement
            rw [shorten_of_ne hexpression, settle_of_other (by simpa using hkind) (by simpa using hblock)]
            apply constant?_reduceFields h
            intro c inner t hc hseated hif
            exact ih c.size (hsize ▸ hc) hseated hif t rfl

end Minifier.Optimize
