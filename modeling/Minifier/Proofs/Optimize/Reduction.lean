import Minifier.Proofs.Optimize.Placement

/-!
# The optimizer as a recursion on nodes

`reduce` is what the optimizer makes of one node, with everything below it, where no name of a constant
is bound. Of the tree around the node it needs to know the `Spot`: whether the node stands in a list, at
the start of a body, and whether it is the body of a function itself.

`reduce_eq` is the recursion, and `get?_reduceFields` says what becomes of each field. What may stand
somewhere may stand there reduced (`fateSeated_reduce`).
-/

namespace Minifier.Optimize

open Node

/-! ## The recursion -/

/-- What the tree around a node has to do with how the node is reduced. -/
structure Spot where
  /-- it stands in a list -/
  listed : Bool
  /-- before it stand only directives of a program or a function -/
  prologue : Bool
  /-- it is the body of a function -/
  body : Bool

/-- The slots of a node at the spot are the body of a program or a function. -/
def Spot.opensBody (s : Spot) (kind : Kind) : Bool :=
  kind == .program || (kind == .blockStatement && s.body)

/-- What stands in the field is the body of a function. -/
def isBodyField (kind : Kind) (field : String) : Bool := kind.isFunction && field == "body"

/-- The constant that is put for an operator, where `value?` gives the values of expressions. -/
def foldedBy (value? : Node → Option Value) (n : Node) : Option Node :=
  if n.kind.isOperator && n.text? "operator" != some "void" then
    (value? n).bind fun value =>
      if (Expression.ofValue value).same n then none else some (Expression.ofValue value)
  else none

/-- The constant that is put for an operator. -/
def folded? (n : Node) : Option Node :=
  if n.kind.isOperator && n.text? "operator" != some "void" then
    (constant? n).bind fun value =>
      if (Expression.ofValue value).same n then none else some (Expression.ofValue value)
  else none

/-- Write `void e;` as `!e;`. -/
def shorten (n : Node) : Node :=
  if n.kind = .expressionStatement ∧ discardsVoid n = true then
    match n.child? "expression" with
    | some expression => n.set "expression" (.child (expression.setValue "operator" (.string "!")))
    | none => n
  else n

/-- What is left of an `if` when all below it is reduced. -/
def settleIf (listed : Bool) (n : Node) : Settled × Node :=
  match (n.child? "test").bind constant? with
  | none => (.keep, n)
  | some test =>
    if (branches n test.truthy).2.any declaresVar then (.keep, n)
    else
      match (branches n test.truthy).1 with
      | none => if listed then (.remove, n) else (.keep, ⟨.emptyStatement, []⟩)
      | some statement =>
        if listed && (statement.kind == .blockStatement && !hasLexical statement) then
          (.flatten (statement.children "body"), n)
        else (.keep, statement)

/-- What is left of a node when all below it is reduced. -/
def settle (listed : Bool) (n : Node) : Settled × Node :=
  match n.kind with
  | .ifStatement => settleIf listed n
  | .blockStatement => (.keep, prune n)
  | _ => (.keep, n)

section

variable (below : Spot → Node → Settled × Node)

/-- Reduce slots from left to right. -/
def reduceSlots (body : Bool) : Bool → List (Option Node) → List (Option Node)
  | _, [] => []
  | _, none :: rest => none :: reduceSlots body false rest
  | prologue, some c :: rest =>
    (below ⟨true, prologue, body⟩ c).1.slots (some (below ⟨true, prologue, body⟩ c).2)
      ++ reduceSlots body (prologue && (directive? (below ⟨true, prologue, body⟩ c).2).isSome) rest

/-- Reduce what a field holds. -/
def reduceContent (s : Spot) (kind : Kind) (name : String) : Field Node → Field Node
  | .child c => .child (below ⟨false, false, isBodyField kind name⟩ c).2
  | .list slots => .list (reduceSlots below (isBodyField kind name) (s.opensBody kind) slots)
  | .value json => .value json

/-- Reduce one field of a node, and write it into a copy. -/
def reduceField (s : Spot) (n copy : Node) (name : String) : Node :=
  match n.get? name with
  | some content => copy.set name (reduceContent below s n.kind name content)
  | none => copy

/-- Reduce the fields of a node. -/
def reduceFields (s : Spot) (n : Node) : Node := n.kind.fields.foldl (reduceField below s n) n

end

/-- What the optimizer makes of a node at a spot, and what becomes of its slot. The recursion is into what
the node holds, which is smaller. -/
def reduce (s : Spot) (n : Node) : Settled × Node :=
  match folded? n with
  | some constant => (.keep, constant)
  | none =>
    if s.prologue && directive? n == some "use strict" then (.remove, n)
    else
      settle s.listed
        (reduceFields (fun t c => if _h : c.size < n.size then reduce t c else (.keep, c)) s
          (shorten n))
termination_by n.size
decreasing_by exact _h

/-! ## The equation -/

variable {below below' : Spot → Node → Settled × Node} {s : Spot} {n m c : Node} {name : String}
  {content : Field Node}

theorem sizeOfFields_set {fields : List (String × Field Node)} {old new : Field Node}
    (h : Entries.get? fields name = some old) :
    sizeOfFields (Entries.set fields name new) + sizeOfField old
      = sizeOfFields fields + sizeOfField new := by
  induction fields with
  | nil => cases h
  | cons entry rest ih =>
      obtain ⟨key, field⟩ := entry
      by_cases hkey : key = name
      · simp only [Entries.get?, if_pos hkey, Option.some.injEq] at h
        subst h
        simp only [Entries.set, if_pos hkey, sizeOfFields]
        omega
      · simp only [Entries.get?, if_neg hkey] at h
        simp only [Entries.set, if_neg hkey, sizeOfFields]
        have := ih h
        omega

/-- Writing something of the same size keeps the size. -/
theorem size_set {old : Field Node} (h : n.get? name = some old)
    (hsize : sizeOfField content = sizeOfField old) : (n.set name content).size = n.size := by
  obtain ⟨kind, fields⟩ := n
  have hfields : sizeOfFields (Entries.set fields name content) + sizeOfField old
      = sizeOfFields fields + sizeOfField content := sizeOfFields_set h
  show 1 + sizeOfFields (Entries.set fields name content) = 1 + sizeOfFields fields
  omega

theorem text?_eq_some_iff {text : String} :
    n.text? name = some text ↔ n.get? name = some (.value (.string text)) := by
  unfold text? value?
  cases n.get? name with
  | none => simp
  | some content =>
      cases content with
      | value json => cases json <;> simp [Field.value?, Json.string?]
      | _ => simp [Field.value?]

theorem discardsVoid_iff : discardsVoid n = true ↔ ∃ e, n.child? "expression" = some e ∧
    e.kind = .unaryExpression ∧ e.get? "operator" = some (.value (.string "void")) := by
  unfold discardsVoid
  cases n.child? "expression" with
  | none => simp
  | some e => simp [← text?_eq_some_iff]

theorem shorten_of_discardsVoid (hkind : n.kind = .expressionStatement) {e : Node}
    (he : n.child? "expression" = some e) (h : discardsVoid n = true) :
    shorten n = n.set "expression" (.child (e.setValue "operator" (.string "!"))) := by
  unfold shorten
  rw [if_pos ⟨hkind, h⟩, he]

theorem shorten_eq_self (h : ¬ (n.kind = .expressionStatement ∧ discardsVoid n = true)) :
    shorten n = n := if_neg h

theorem foldedBy_eq_some {value? : Node → Option Value} (h : foldedBy value? n = some m) :
    n.kind.isOperator = true ∧ n.text? "operator" ≠ some "void" ∧
      ∃ v, value? n = some v ∧ m = Expression.ofValue v := by
  unfold foldedBy at h
  split at h
  · rename_i hoperator
    obtain ⟨hkind, htext⟩ := Bool.and_eq_true_iff.mp hoperator
    obtain ⟨v, hv, hm⟩ := Option.bind_eq_some_iff.mp h
    split at hm
    · cases hm
    · cases hm
      exact ⟨hkind, bne_iff_ne.mp htext, v, hv, rfl⟩
  · cases h

theorem foldedBy_of_not_isOperator (value? : Node → Option Value) (h : n.kind.isOperator = false) :
    foldedBy value? n = none := by
  unfold foldedBy
  rw [h]
  rfl

theorem folded?_of_not_isOperator (h : n.kind.isOperator = false) : folded? n = none :=
  foldedBy_of_not_isOperator constant? h

theorem directive?_of_ne (h : n.kind ≠ .expressionStatement) : directive? n = none := if_neg h

theorem directive?_eq_some {text : String} (h : directive? n = some text) :
    n.kind = .expressionStatement ∧ ∃ e, n.child? "expression" = some e ∧ e.kind = .literal ∧
      e.text? "value" = some text := by
  unfold directive? at h
  split at h
  · rename_i hkind
    obtain ⟨e, he, h⟩ := Option.bind_eq_some_iff.mp h
    split at h
    · rename_i hliteral
      exact ⟨hkind, e, he, hliteral, h⟩
    · cases h
  · cases h

theorem shorten_of_ne (h : n.kind ≠ .expressionStatement) : shorten n = n :=
  shorten_eq_self fun hvoid => h hvoid.1

@[simp] theorem kind_shorten (n : Node) : (shorten n).kind = n.kind := by
  unfold shorten
  split
  · split <;> rfl
  · rfl

theorem size_shorten (n : Node) : (shorten n).size = n.size := by
  by_cases h : n.kind = .expressionStatement ∧ discardsVoid n = true
  · obtain ⟨e, he, _, hoperator⟩ := discardsVoid_iff.mp h.2
    rw [shorten_of_discardsVoid h.1 he h.2]
    have hsize : (e.setValue "operator" (.string "!")).size = e.size := size_set hoperator rfl
    exact size_set (child?_eq_some_iff.mp he) hsize
  · rw [shorten_eq_self h]

/-- Reduction below is asked for what the slots hold only. -/
theorem reduceSlots_congr {slots : List (Option Node)}
    (h : ∀ t c, some c ∈ slots → below t c = below' t c) (body prologue : Bool) :
    reduceSlots below body prologue slots = reduceSlots below' body prologue slots := by
  induction slots generalizing prologue with
  | nil => rfl
  | cons slot rest ih =>
      have hrest := ih fun t c hc => h t c (List.mem_cons_of_mem _ hc)
      cases slot with
      | none => rw [reduceSlots, reduceSlots, hrest]
      | some c => rw [reduceSlots, reduceSlots, h _ c (List.mem_cons_self ..), hrest]

theorem reduceContent_congr (h : ∀ t c, c.size ≤ sizeOfField content → below t c = below' t c)
    (s : Spot) (kind : Kind) (name : String) :
    reduceContent below s kind name content = reduceContent below' s kind name content := by
  cases content with
  | child c => rw [reduceContent, reduceContent, h _ c (Nat.le_refl _)]
  | list slots =>
      rw [reduceContent, reduceContent,
        reduceSlots_congr fun t c hc => h t c (size_le_of_mem_slots hc)]
  | value json => rfl

theorem reduceFields_congr (h : ∀ t c, c.size < n.size → below t c = below' t c) (s : Spot) :
    reduceFields below s n = reduceFields below' s n := by
  have hfield : reduceField below s n = reduceField below' s n := by
    funext copy name
    unfold reduceField
    cases hget : n.get? name with
    | none => rfl
    | some content =>
        have hlt := sizeOfField_lt_of_get? hget
        have hsame := reduceContent_congr
          (fun t c (hc : c.size ≤ sizeOfField content) => h t c (Nat.lt_of_le_of_lt hc hlt))
          s n.kind name
        simp only [hsame]
  unfold reduceFields
  rw [hfield]

theorem reduce_eq (s : Spot) (n : Node) :
    reduce s n =
      match folded? n with
      | some constant => (.keep, constant)
      | none =>
        if s.prologue && directive? n == some "use strict" then (.remove, n)
        else settle s.listed (reduceFields reduce s (shorten n)) := by
  rw [reduce]
  have hfields : reduceFields (fun t c => if _h : c.size < n.size then reduce t c else (.keep, c)) s
      (shorten n) = reduceFields reduce s (shorten n) := by
    apply reduceFields_congr
    intro t c hc
    rw [size_shorten] at hc
    exact dif_pos hc
  rw [hfields]

/-! ## The fields -/

/-- Fields are reduced one by one; what every write keeps is kept. -/
theorem reduceFields_induction {motive : Node → Prop} (start : motive n)
    (step : ∀ copy name content, motive copy → copy.kind = n.kind → name ∈ n.kind.fields →
      n.get? name = some content →
      motive (copy.set name (reduceContent below s n.kind name content))) :
    motive (reduceFields below s n) := by
  have hall : ∀ names : List String, names ⊆ n.kind.fields → ∀ copy : Node, copy.kind = n.kind →
      motive copy → motive (names.foldl (reduceField below s n) copy) := by
    intro names
    induction names with
    | nil => exact fun _ _ _ h => h
    | cons name names ih =>
        intro hnames copy hkind hcopy
        have hrest : names ⊆ n.kind.fields := fun x hx => hnames (List.mem_cons_of_mem _ hx)
        rw [List.foldl_cons]
        unfold reduceField
        cases hget : n.get? name with
        | none => exact ih hrest copy hkind hcopy
        | some content =>
            exact ih hrest _ hkind
              (step copy name content hcopy hkind (hnames (List.mem_cons_self ..)) hget)
  exact hall _ (fun _ h => h) n rfl start

@[simp] theorem kind_reduceFields (below : Spot → Node → Settled × Node) (s : Spot) (n : Node) :
    (reduceFields below s n).kind = n.kind :=
  reduceFields_induction (motive := fun copy => copy.kind = n.kind) rfl fun _ _ _ h _ _ _ => h

theorem get?_reduceField (copy : Node) (other : String) :
    (reduceField below s n copy other).get? name =
      if name = other ∧ (n.get? name).isSome = true then
        (n.get? name).map (reduceContent below s n.kind name)
      else copy.get? name := by
  unfold reduceField
  by_cases hother : name = other
  · subst hother
    cases n.get? name <;> simp
  · rw [if_neg fun h => hother h.1]
    cases n.get? other with
    | none => rfl
    | some content => exact get?_set_of_ne hother

/-- What becomes of each field. -/
theorem get?_reduceFields (below : Spot → Node → Settled × Node) (s : Spot) (n : Node)
    (name : String) :
    (reduceFields below s n).get? name =
      if name ∈ n.kind.fields then (n.get? name).map (reduceContent below s n.kind name)
      else n.get? name := by
  -- A field that was written is not written again with anything else.
  have hall : ∀ names : List String, ∀ copy : Node,
      (names.foldl (reduceField below s n) copy).get? name =
        if name ∈ names ∧ (n.get? name).isSome = true then
          (n.get? name).map (reduceContent below s n.kind name)
        else copy.get? name := by
    intro names
    induction names with
    | nil => intro copy; simp
    | cons other names ih =>
        intro copy
        rw [List.foldl_cons, ih, get?_reduceField]
        cases n.get? name with
        | none => simp
        | some content => by_cases hother : name = other <;> simp [hother]
  unfold reduceFields
  rw [hall]
  by_cases hname : name ∈ n.kind.fields
  · cases n.get? name <;> simp [hname]
  · simp [hname]

/-! ## Reduced nodes may stand where the nodes stood -/

variable {place inner : Place}

/-- Where an `if` may stand, anything may. -/
theorem plain_of_if (h : seated place n = true) (hkind : n.kind = .ifStatement) : place = .plain := by
  have hallows := allows_of_stands h
  cases place <;> simp [Place.allows, hkind] at hallows
  rfl

theorem seated_of_values (hallows : place.allows n = true)
    (h : ∀ entry ∈ n.fields, ∃ json, entry.2 = .value json) : seated place n = true := by
  refine stands_iff.mpr ⟨hallows, ?_⟩
  intro entry hentry inner _
  obtain ⟨json, hjson⟩ := h entry hentry
  rw [hjson]
  rfl

/-- An operator may stand there. -/
def Place.takesOperators : Place → Bool
  | .quasi | .binding | .member => false
  | _ => true

theorem takesOperators_of_seated (h : seated place n = true) (hkind : n.kind.isOperator = true) :
    place.takesOperators = true := by
  have hallows := allows_of_stands h
  cases place <;> simp_all [Place.allows, Place.takesOperators]

section

variable (hplace : place.takesOperators = true)
include hplace

theorem allows_of_takesOperators (hkind : n.kind ≠ .ifStatement)
    (hdirective : isValuelessDirective n = false) : place.allows n = true := by
  cases place <;> simp_all [Place.allows, Place.takesOperators]

theorem seated_identifier (name : String) : seated place (Expression.identifier name) = true := by
  apply seated_of_values
  · exact allows_of_takesOperators hplace (by simp [Expression.identifier]) rfl
  · simp [Expression.identifier]

theorem seated_literal (v : Value) : seated place (Expression.literal v) = true := by
  apply seated_of_values
  · apply allows_of_takesOperators hplace
    · simp [Expression.literal]
    · simp [isValuelessDirective, Expression.literal, has, get?, Entries.get?]
  · simp [Expression.literal]

theorem seated_ofMagnitude (x : Float) : seated place (Expression.ofMagnitude x) = true := by
  unfold Expression.ofMagnitude
  split
  · exact seated_identifier hplace _
  · exact seated_literal hplace _

theorem seated_negation {argument : Node} (h : seated .operand argument = true) :
    seated place (Expression.negation argument) = true := by
  have hkind : (Expression.negation argument).kind = .unaryExpression := rfl
  refine stands_iff.mpr ⟨?_, ?_⟩
  · exact allows_of_takesOperators hplace (by rw [hkind]; decide) rfl
  · intro entry hentry inner hseat
    simp only [Expression.negation, List.mem_cons, List.not_mem_nil, or_false] at hentry
    rcases hentry with rfl | rfl | rfl
    · rfl
    · rfl
    · cases (hseat : some Place.operand = some inner)
      exact h

/-- Where an operator may stand, so may the expression for a value. -/
theorem seated_ofValue {v : Value} (hprimitive : v.isPrimitive = true) :
    seated place (Expression.ofValue v) = true := by
  cases v with
  | undefined => exact seated_identifier hplace _
  | null => exact seated_literal hplace .null
  | bool b => exact seated_literal hplace (.bool b)
  | string text => exact seated_literal hplace (.string text)
  | array items => cases hprimitive
  | object entries => cases hprimitive
  | number x =>
      show seated place (Expression.ofNumber x) = true
      unfold Expression.ofNumber
      split
      · exact seated_identifier hplace _
      · split
        · exact seated_negation hplace (seated_ofMagnitude rfl _)
        · exact seated_ofMagnitude hplace _

end

theorem folded?_eq_some (h : folded? n = some m) :
    n.kind.isOperator = true ∧ ∃ v, constant? n = some v ∧ m = Expression.ofValue v := by
  have hfolded : foldedBy constant? n = some m := h
  obtain ⟨hkind, _, hvalue⟩ := foldedBy_eq_some hfolded
  exact ⟨hkind, hvalue⟩

theorem seated_folded (hn : seated place n = true) (h : folded? n = some m) :
    seated place m = true := by
  obtain ⟨hkind, v, hv, rfl⟩ := folded?_eq_some h
  exact seated_ofValue (takesOperators_of_seated hn hkind) (isPrimitive_of_evaluate? hv)

theorem seated_shorten (h : seated place n = true) : seated place (shorten n) = true := by
  by_cases hvoid : n.kind = .expressionStatement ∧ discardsVoid n = true
  · obtain ⟨e, he, _⟩ := discardsVoid_iff.mp hvoid.2
    rw [shorten_of_discardsVoid hvoid.1 he hvoid.2]
    have hseat : place.seat n.kind "expression" = some .plain := by rw [hvoid.1]; rfl
    have hfield : "expression" ∈ n.kind.fields := by rw [hvoid.1]; decide
    apply seated_set_field h hfield hseat
    have hunary := stands_child h he hseat
    show seated .plain (e.set "operator" (.value (.string "!"))) = true
    exact stands_set hunary rfl fun _ _ => rfl
  · rw [shorten_eq_self hvoid]
    exact h

/-! ### Leaving -/

theorem seat_body_block (place : Place) : place.seat .blockStatement "body" = some .plain := by
  cases place <;> rfl

/-- What is left of a statement is the statement, or variables without their values. -/
theorem unreachableRemainder?_eq_some (h : unreachableRemainder? n = some m) :
    m = n ∨ n.kind = .variableDeclaration ∧ ∃ declarators, n.slots? "declarations" = some declarators ∧
      isPlainDeclaration declarators = true ∧
      m = n.set "declarations" (.list (declarators.map (·.map (·.setValue "init" .null)))) := by
  unfold unreachableRemainder? at h
  split at h
  · cases h
    exact .inl rfl
  · split at h
    · rename_i hvar
      obtain ⟨declarators, hslots, h⟩ := Option.map_eq_some_iff.mp h
      split at h
      · rename_i hplain
        have hkind : n.kind = .variableDeclaration := beq_iff_eq.mp (Bool.and_eq_true_iff.mp hvar).1
        exact .inr ⟨hkind, declarators, hslots, hplain, h.symm⟩
      · exact .inl h.symm
    · cases h

/-- What is in a pruned list was there, or is left of what was there. -/
theorem mem_pruneStatements {slots : List (Option Node)} (hm : some m ∈ pruneStatements slots) :
    some m ∈ slots ∨ ∃ old, some old ∈ slots ∧ unreachableRemainder? old = some m := by
  induction slots with
  | nil => cases hm
  | cons slot rest ih =>
      rw [pruneStatements] at hm
      split at hm
      · rcases List.mem_cons.mp hm with hm | hm
        · exact .inl (hm ▸ List.mem_cons_self ..)
        · simp only [List.mem_map, List.mem_filterMap, id] at hm
          obtain ⟨_, ⟨old, ⟨_, hold, rfl⟩, hremainder⟩, heq⟩ := hm
          cases heq
          exact .inr ⟨old, List.mem_cons_of_mem _ hold, hremainder⟩
      · rcases List.mem_cons.mp hm with hm | hm
        · exact .inl (hm ▸ List.mem_cons_self ..)
        · rcases ih hm with hm | ⟨old, hold, hremainder⟩
          · exact .inl (List.mem_cons_of_mem _ hm)
          · exact .inr ⟨old, List.mem_cons_of_mem _ hold, hremainder⟩

theorem seated_unreachableRemainder? (hn : seated place n = true)
    (h : unreachableRemainder? n = some m) : seated place m = true := by
  rcases unreachableRemainder?_eq_some h with rfl | ⟨hkind, declarators, hslots, _, rfl⟩
  · exact hn
  · have hseat : place.seat n.kind "declarations" = some .declarator := by rw [hkind]; rfl
    have hfield : "declarations" ∈ n.kind.fields := by rw [hkind]; decide
    refine seated_set_field hn hfield hseat (standsSlots_iff.mpr ?_)
    intro d hd
    obtain ⟨slot, hslot, hd⟩ := List.mem_map.mp hd
    obtain ⟨old, rfl, rfl⟩ := Option.map_eq_some_iff.mp hd
    have hold := stands_slot hn (slots?_eq_some_iff.mp hslots) hseat hslot
    have hallows : Place.allows .declarator old = true := allows_of_stands hold
    exact stands_set hold hallows fun _ _ => rfl

theorem kind_prune (n : Node) : (prune n).kind = n.kind := by
  unfold prune
  split <;> rfl

theorem seated_prune (h : seated place n = true) (hkind : n.kind = .blockStatement) :
    seated place (prune n) = true := by
  unfold prune
  cases hslots : n.slots? "body" with
  | none => exact h
  | some slots =>
      have hseat : place.seat n.kind "body" = some .plain := by rw [hkind]; exact seat_body_block _
      have hfield : "body" ∈ n.kind.fields := by rw [hkind]; decide
      refine seated_set_field h hfield hseat (standsSlots_iff.mpr ?_)
      intro m hm
      have hold : ∀ m, some m ∈ slots → seated .plain m = true :=
        fun _ hm => stands_slot h (slots?_eq_some_iff.mp hslots) hseat hm
      rcases mem_pruneStatements hm with hm | ⟨old, hm, hremainder⟩
      · exact hold m hm
      · exact seated_unreachableRemainder? (hold old hm) hremainder

/-- The node that is left, and the nodes put in its place, may stand there. -/
structure FateSeated (place : Place) (reduced : Settled × Node) : Prop where
  node : seated place reduced.2 = true
  nodes : ∀ nodes, reduced.1 = .flatten nodes → ∀ m ∈ nodes, seated place m = true

theorem FateSeated.keep (h : seated place n = true) : FateSeated place (.keep, n) :=
  ⟨h, fun _ hnodes => nomatch hnodes⟩

theorem FateSeated.remove (h : seated place n = true) : FateSeated place (.remove, n) :=
  ⟨h, fun _ hnodes => nomatch hnodes⟩

theorem FateSeated.slots {reduced : Settled × Node} (h : FateSeated place reduced)
    (hm : some m ∈ reduced.1.slots (some reduced.2)) : seated place m = true := by
  obtain ⟨settled, node⟩ := reduced
  cases settled with
  | keep =>
      cases List.mem_singleton.mp hm
      exact h.node
  | remove => cases hm
  | flatten nodes =>
      obtain ⟨_, hmem, heq⟩ := List.mem_map.mp hm
      cases heq
      exact h.nodes nodes rfl m hmem

theorem seated_branch (h : seated place n = true) (hkind : n.kind = .ifStatement) {test : Bool}
    (hm : (branches n test).1 = some m) : seated .plain m = true := by
  have hconsequent : place.seat n.kind "consequent" = some .plain := by
    rw [hkind, plain_of_if h hkind]
    rfl
  have halternate : place.seat n.kind "alternate" = some .plain := by
    rw [hkind, plain_of_if h hkind]
    rfl
  cases test with
  | true => exact stands_child h hm hconsequent
  | false => exact stands_child h hm halternate

theorem fateSeated_settleIf (h : seated place n = true) (hkind : n.kind = .ifStatement)
    (listed : Bool) : FateSeated place (settleIf listed n) := by
  have hplain := plain_of_if h hkind
  subst hplain
  unfold settleIf
  split
  · exact .keep h
  · split
    · exact .keep h
    · split
      · split
        · exact .remove h
        · exact .keep (seated_of_values rfl (by simp))
      · rename_i statement htaken
        have hstatement := seated_branch h hkind htaken
        split
        · rename_i hblock
          refine ⟨h, ?_⟩
          rintro nodes hnodes m hm
          cases hnodes
          have hkind : statement.kind = .blockStatement := by
            simp only [Bool.and_eq_true, beq_iff_eq] at hblock
            exact hblock.2.1
          exact stands_children hstatement hm (by rw [hkind]; rfl)
        · exact .keep hstatement

theorem fateSeated_settle (h : seated place n = true) (listed : Bool) :
    FateSeated place (settle listed n) := by
  unfold settle
  split
  · rename_i hkind
    exact fateSeated_settleIf h hkind listed
  · rename_i hkind
    exact .keep (seated_prune h hkind)
  · exact .keep h

/-! ### All of a node -/

/-- What is in a reduced list stands in the place of something that was there. -/
theorem mem_reduceSlots {slots : List (Option Node)} {body prologue : Bool}
    (hm : some m ∈ reduceSlots below body prologue slots) :
    ∃ t c, some c ∈ slots ∧ some m ∈ (below t c).1.slots (some (below t c).2) := by
  induction slots generalizing prologue with
  | nil => cases hm
  | cons slot rest ih =>
      have hlater : ∀ {prologue}, some m ∈ reduceSlots below body prologue rest →
          ∃ t c, some c ∈ slot :: rest ∧ some m ∈ (below t c).1.slots (some (below t c).2) := by
        intro prologue hm
        obtain ⟨t, c, hc, hm⟩ := ih hm
        exact ⟨t, c, List.mem_cons_of_mem _ hc, hm⟩
      cases slot with
      | none =>
          rcases List.mem_cons.mp hm with hm | hm
          · cases hm
          · exact hlater hm
      | some c =>
          rcases List.mem_append.mp hm with hm | hm
          · exact ⟨_, c, List.mem_cons_self .., hm⟩
          · exact hlater hm

theorem seatedField_reduceContent (h : standsField Place.seat place content = true)
    (hbelow : ∀ t c, c.size ≤ sizeOfField content → seated place c = true →
      FateSeated place (below t c)) (kind : Kind) :
    standsField Place.seat place (reduceContent below s kind name content) = true := by
  cases content with
  | child c => exact (hbelow _ c (Nat.le_refl _) h).node
  | value json => rfl
  | list slots =>
      refine standsSlots_iff.mpr fun m hm => ?_
      obtain ⟨t, c, hc, hm⟩ := mem_reduceSlots hm
      exact (hbelow t c (size_le_of_mem_slots hc) (standsSlots_iff.mp h c hc)).slots hm

/-- **What may stand somewhere may stand there reduced.** -/
theorem fateSeated_reduce (h : seated place n = true) (s : Spot) : FateSeated place (reduce s n) := by
  induction hsize : n.size using Nat.strongRecOn generalizing n place s with
  | ind size ih =>
      rw [reduce_eq]
      split
      · rename_i constant hfolded
        exact .keep (seated_folded h hfolded)
      · split
        · exact .remove h
        · apply fateSeated_settle
          refine reduceFields_induction (motive := fun copy => seated place copy = true)
            (seated_shorten h) ?_
          intro copy name content hcopy hkind hfield hget
          obtain ⟨inner, hseat⟩ := exists_seat place hfield
          have hcontent := standsField_of_get? (seated_shorten h) hget hseat
          rw [← hkind] at hfield hseat
          apply seated_set_field hcopy hfield hseat
          apply seatedField_reduceContent hcontent
          intro t c hc hseated
          have hlt : c.size < n.size := by
            have := sizeOfField_lt_of_get? hget
            rw [size_shorten] at this
            omega
          exact ih c.size (hsize ▸ hlt) hseated t rfl

end Minifier.Optimize
