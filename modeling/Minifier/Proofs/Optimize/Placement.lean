import Minifier.Optimize.Optimizer
import Minifier.Proofs.Edit.Surroundings
import Minifier.Proofs.Entries
import Minifier.Proofs.Optimize.Constant
import Minifier.Proofs.Scope.Binders

/-!
# Where nodes stand

Nodes hold any nodes in any field. The optimizer relies on more: that operands are expressions, that
patterns bind names, that declarations hold declarators. `placed` checks of a tree that nothing the
optimizer rewrites stands where the rewriting would change the meaning of what is around it, and that
no pattern binds the name of a constant. `seated` asks for as much of that as the walk of the optimizer needs
to come out as expected, and is what the lemmas below are about.

In surroundings that pass the check no name of a constant is bound (`isBound_eq_false`), so that an
expression has there the value that it has by itself.
-/

namespace Minifier

/-- Expressions that the optimizer may put a constant for. -/
def Kind.isOperator : Kind → Bool
  | .unaryExpression | .binaryExpression | .logicalExpression => true
  | _ => false

theorem Kind.isOperator_iff {kind : Kind} : kind.isOperator = true ↔
    kind = .unaryExpression ∨ kind = .binaryExpression ∨ kind = .logicalExpression := by
  cases kind <;> simp [isOperator]

namespace Optimize

open Node

/-- The identifier has the name of a constant. -/
def namesConstant (n : Node) : Bool :=
  n.kind == .identifier && n.name?.any fun name => (constantValue? name).isSome

/-- The literal has the text of a directive, but is marked as one that has no value. -/
def isValuelessDirective (n : Node) : Bool :=
  n.kind == .literal && n.text? "value" == some "use strict" && (n.has "regex" || n.has "bigint")

/-- What a node is expected to be where it stands. -/
inductive Place where
  | plain
  /-- an expression whose value counts -/
  | operand
  /-- the expression of a statement -/
  | discarded
  /-- a piece of text in a template -/
  | quasi
  /-- a pattern -/
  | binding
  /-- a property of an object pattern -/
  | member
  | declarator
  | specifier
  | arm
deriving DecidableEq, Repr

namespace Place

/-- The node may stand there. -/
def allows (place : Place) (n : Node) : Bool :=
  match place with
  | .plain => true
  | .operand | .declarator | .specifier | .arm => n.kind != .ifStatement
  | .discarded => n.kind != .ifStatement && !isValuelessDirective n
  | .quasi => n.kind != .ifStatement && !n.kind.isOperator
  | .binding | .member => n.kind != .ifStatement && !n.kind.isOperator && !namesConstant n

/-- The place that a field is, whatever the place of the node. -/
def ofField? : Kind → String → Option Place
  | .functionDeclaration, "id" | .functionDeclaration, "params"
  | .functionExpression, "id" | .functionExpression, "params"
  | .arrowFunctionExpression, "id" | .arrowFunctionExpression, "params"
  | .classDeclaration, "id" | .classExpression, "id"
  | .catchClause, "param" => some .binding
  | .variableDeclaration, "declarations" => some .declarator
  | .importDeclaration, "specifiers" => some .specifier
  | .switchStatement, "cases" => some .arm
  | .expressionStatement, "expression" => some .discarded
  | .ifStatement, "test"
  | .parenthesizedExpression, "expression"
  | .unaryExpression, "argument"
  | .binaryExpression, "left" | .binaryExpression, "right"
  | .logicalExpression, "left" | .logicalExpression, "right"
  | .templateLiteral, "expressions" => some .operand
  | .templateLiteral, "quasis" => some .quasi
  | _, _ => none

/-- The place that a field of a pattern is. -/
def ofPattern? : Kind → String → Option Place
  | .objectPattern, "properties" => some .member
  | .arrayPattern, "elements"
  | .assignmentPattern, "left"
  | .restElement, "argument" => some .binding
  | _, _ => none

/-- The place that a field is by the place of the node. -/
def within? (place : Place) (kind : Kind) (field : String) : Option Place :=
  match place with
  | .binding => ofPattern? kind field
  | .member => if kind = .property ∧ field = "value" then some .binding else ofPattern? kind field
  | .declarator => if field = "id" then some .binding else none
  | .specifier => if field = "local" then some .binding else none
  | .arm => if field = "consequent" then some .plain else none
  | .plain | .operand | .discarded | .quasi => none

/-- The place that a field is. What neither a traversal nor a scope looks at is none. -/
def below (place : Place) (kind : Kind) (field : String) : Option Place :=
  (ofField? kind field).or
    ((within? place kind field).or (if field ∈ kind.fields then some .plain else none))

end Place

/-- The place that a field is for the walk of the optimizer: as the expression of a statement and as the test
of an `if` anything will do. -/
def Place.seat (place : Place) : Kind → String → Option Place
  | .expressionStatement, "expression" | .ifStatement, "test" => some .plain
  | kind, field => place.below kind field

/-- A table of the places that fields are, by the place and the kind of the node. -/
abbrev Place.Table := Place → Kind → String → Option Place

mutual

/-- Everything in the tree may stand where it stands by the table. -/
def stands (table : Place.Table) (place : Place) : Node → Bool
  | ⟨kind, fields⟩ => place.allows ⟨kind, fields⟩ && standsFields table place kind fields

/-- Everything in the fields of a node may stand where it stands by the table. -/
def standsFields (table : Place.Table) (place : Place) (kind : Kind) : List (String × Field Node) → Bool
  | [] => true
  | (name, field) :: rest =>
    (match table place kind name with
      | some inner => standsField table inner field
      | none => true) && standsFields table place kind rest

/-- Everything in a field may stand where it stands by the table. -/
def standsField (table : Place.Table) (place : Place) : Field Node → Bool
  | .child node => stands table place node
  | .list slots => standsSlots table place slots
  | .value _ => true

/-- Everything in a list of slots may stand where it stands by the table. -/
def standsSlots (table : Place.Table) (place : Place) : List (Option Node) → Bool
  | [] => true
  | none :: rest => standsSlots table place rest
  | some node :: rest => stands table place node && standsSlots table place rest

end

/-- Everything in the tree may stand where it stands. -/
abbrev placed : Place → Node → Bool := stands Place.below

/-- Everything in the tree stands where the walk can deal with it. -/
abbrev seated : Place → Node → Bool := stands Place.seat

variable {place inner : Place} {n c : Node} {name : String} {content : Field Node}

/-! ## One level -/

section

variable {table : Place.Table}

theorem standsFields_iff {kind : Kind} {fields : List (String × Field Node)} :
    standsFields table place kind fields = true ↔
      ∀ entry ∈ fields, ∀ inner, table place kind entry.1 = some inner →
        standsField table inner entry.2 = true := by
  induction fields with
  | nil => simp [standsFields]
  | cons entry rest ih =>
      obtain ⟨name, field⟩ := entry
      rw [standsFields, Bool.and_eq_true, ih]
      cases htable : table place kind name <;> simp [htable]

theorem stands_iff :
    stands table place n = true ↔ place.allows n = true ∧
      ∀ entry ∈ n.fields, ∀ inner, table place n.kind entry.1 = some inner →
        standsField table inner entry.2 = true := by
  obtain ⟨kind, fields⟩ := n
  rw [stands, Bool.and_eq_true, standsFields_iff]

theorem standsSlots_iff {slots : List (Option Node)} :
    standsSlots table place slots = true ↔ ∀ n, some n ∈ slots → stands table place n = true := by
  induction slots with
  | nil => simp [standsSlots]
  | cons slot rest ih => cases slot <;> simp [standsSlots, ih]

theorem allows_of_stands (h : stands table place n = true) : place.allows n = true :=
  (stands_iff.mp h).1

theorem standsField_of_get? (h : stands table place n = true) (hget : n.get? name = some content)
    (hplace : table place n.kind name = some inner) : standsField table inner content = true :=
  (stands_iff.mp h).2 _ (Entries.mem_of_get?_eq_some hget) inner hplace

theorem stands_child (h : stands table place n = true) (hchild : n.child? name = some c)
    (hplace : table place n.kind name = some inner) : stands table inner c = true :=
  standsField_of_get? h (child?_eq_some_iff.mp hchild) hplace

theorem stands_slot {slots : List (Option Node)} (h : stands table place n = true)
    (hget : n.get? name = some (.list slots)) (hplace : table place n.kind name = some inner)
    (hc : some c ∈ slots) : stands table inner c = true :=
  standsSlots_iff.mp (standsField_of_get? h hget hplace) c hc

theorem stands_children (h : stands table place n = true) (hc : c ∈ n.children name)
    (hplace : table place n.kind name = some inner) : stands table inner c = true := by
  unfold Node.children at hc
  cases hslots : n.slots? name with
  | none => simp [hslots] at hc
  | some slots =>
      have hslot : some c ∈ slots := by simpa [hslots] using hc
      exact stands_slot h (slots?_eq_some_iff.mp hslots) hplace hslot

/-- What is one step down stands in the place that the field is. -/
theorem stands_step {step : Step} (h : stands table place n = true) (hstep : n.step? step = some c)
    (hplace : table place n.kind step.field = some inner) : stands table inner c = true := by
  obtain ⟨field, index⟩ := step
  cases index with
  | none => exact stands_child h hstep hplace
  | some i =>
      obtain ⟨slots, hget, hslot⟩ := step?_slot_eq_some_iff.mp hstep
      exact stands_slot h hget hplace (List.mem_of_getElem? hslot)

theorem stands_of_child? {o x : Occurrence} (h : stands table place o.node = true)
    (hx : o.child? name = some x) (hplace : table place o.node.kind name = some inner) :
    stands table inner x.node = true :=
  stands_step h (Occurrence.child?_eq_some_iff.mp hx).1 hplace

theorem stands_of_mem_children {o x : Occurrence} (h : stands table place o.node = true)
    (hx : x ∈ o.children name) (hplace : table place o.node.kind name = some inner) :
    stands table inner x.node = true := by
  obtain ⟨i, hstep, _⟩ := Occurrence.mem_children_iff.mp hx
  exact stands_step h hstep hplace

theorem stands_set (h : stands table place n = true) (hallows : place.allows (n.set name content) = true)
    (hcontent : ∀ inner, table place n.kind name = some inner → standsField table inner content = true) :
    stands table place (n.set name content) = true := by
  refine stands_iff.mpr ⟨hallows, ?_⟩
  intro entry hentry inner hplace
  rcases Entries.mem_set hentry with rfl | hentry
  · exact hcontent inner hplace
  · exact (stands_iff.mp h).2 entry hentry inner hplace

end

/-! ## What is placed is seated -/

/-- A field that is free for the walk is one whose place takes no part in patterns. -/
theorem seat_eq_below_or (h : place.seat n.kind name = some inner) :
    place.below n.kind name = some inner ∨
      inner = .plain ∧ ∃ outer, place.below n.kind name = some outer ∧
        outer.seat = Place.seat .plain := by
  unfold Place.seat at h
  split at h
  · rename_i hkind
    cases h
    exact .inr ⟨rfl, .discarded, by rw [hkind]; rfl, rfl⟩
  · rename_i hkind
    cases h
    exact .inr ⟨rfl, .operand, by rw [hkind]; rfl, rfl⟩
  · exact .inl h

theorem seated_plain (hplace : place.seat = Place.seat .plain) (h : seated place n = true) :
    seated .plain n = true := by
  refine stands_iff.mpr ⟨rfl, ?_⟩
  rw [← hplace]
  exact (stands_iff.mp h).2

theorem seatedField_of_placedField {outer : Place}
    (h : ∀ c, c.size ≤ sizeOfField content → placed outer c = true → seated inner c = true)
    (hcontent : standsField Place.below outer content = true) : standsField Place.seat inner content = true := by
  cases content with
  | child c => exact h c (Nat.le_refl _) hcontent
  | value json => rfl
  | list slots =>
      refine standsSlots_iff.mpr fun c hc => ?_
      exact h c (size_le_of_mem_slots hc) (standsSlots_iff.mp hcontent c hc)

theorem sizeOfField_lt_of_mem {entry : String × Field Node} (h : entry ∈ n.fields) :
    sizeOfField entry.2 < n.size := by
  obtain ⟨kind, fields⟩ := n
  have hle : sizeOfField entry.2 ≤ sizeOfFields fields := sizeOfField_le_of_mem h
  simp only [size]
  omega

/-- The walk asks for less. -/
theorem seated_of_placed (h : placed place n = true) : seated place n = true := by
  induction hsize : n.size using Nat.strongRecOn generalizing n place with
  | ind size ih =>
      obtain ⟨hallows, hfields⟩ := stands_iff.mp h
      refine stands_iff.mpr ⟨hallows, ?_⟩
      intro entry hentry inner hseat
      have hlt : ∀ c : Node, c.size ≤ sizeOfField entry.2 → c.size < size := by
        intro c hc
        have := sizeOfField_lt_of_mem hentry
        omega
      rcases seat_eq_below_or hseat with hbelow | ⟨rfl, outer, hbelow, houter⟩
      · apply seatedField_of_placedField _ (hfields entry hentry inner hbelow)
        exact fun c hc hplaced => ih c.size (hlt c hc) hplaced rfl
      · apply seatedField_of_placedField _ (hfields entry hentry outer hbelow)
        exact fun c hc hplaced => seated_plain houter (ih c.size (hlt c hc) hplaced rfl)

/-! ## The names that are bound -/

theorem exists_seat (place : Place) {kind : Kind} (h : name ∈ kind.fields) :
    ∃ inner, place.seat kind name = some inner := by
  unfold Place.seat
  split
  · exact ⟨.plain, rfl⟩
  · exact ⟨.plain, rfl⟩
  · unfold Place.below
    rw [if_pos h]
    cases Place.ofField? kind name <;> cases Place.within? place kind name <;> simp

/-- What stands there is taken apart for the names that it binds. -/
def Place.binds : Place → Bool
  | .binding | .member => true
  | _ => false

theorem namesConstant_of_binds (hplace : place.binds = true) (h : seated place n = true) :
    namesConstant n = false := by
  have hallows := allows_of_stands h
  cases place with
  | binding => simpa [Place.allows] using (Bool.and_eq_true_iff.mp hallows).2
  | member => simpa [Place.allows] using (Bool.and_eq_true_iff.mp hallows).2
  | _ => cases hplace

/-- Where names are bound, so they are in the parts of a pattern. -/
theorem seat_of_binds (hplace : place.binds = true) {kind : Kind} {field : String}
    (hkind : Place.ofField? kind field = none) (h : Place.ofPattern? kind field = some inner) :
    place.seat kind field = some inner := by
  have hwithin : Place.within? place kind field = some inner := by
    cases place with
    | binding => exact h
    | member =>
        have hpattern : ¬ (kind = .property ∧ field = "value") := by
          rintro ⟨rfl, rfl⟩
          cases h
        exact (if_neg hpattern).trans h
    | _ => cases hplace
  unfold Place.seat
  split
  · cases hkind
  · cases hkind
  · unfold Place.below
    rw [hkind, hwithin]
    rfl

theorem seat_id (kind : Kind) : Place.seat .declarator kind "id" = some .binding := by
  cases kind <;> rfl

theorem seat_local (kind : Kind) : Place.seat .specifier kind "local" = some .binding := by
  cases kind <;> rfl

theorem seat_consequent (kind : Kind) : Place.seat .arm kind "consequent" = some .plain := by
  cases kind <;> rfl

theorem seated_of_mem_patternParts {o x : Occurrence} (hplace : place.binds = true)
    (h : seated place o.node = true) (hx : x ∈ o.patternParts) :
    ∃ inner, Place.binds inner = true ∧ seated inner x.node = true := by
  unfold Occurrence.patternParts at hx
  split at hx
  · rename_i hkind
    obtain ⟨property, hproperty, hx⟩ := List.mem_flatMap.mp hx
    have hmember : seated .member property.node = true :=
      stands_of_mem_children h hproperty (hkind ▸ seat_of_binds hplace rfl rfl)
    split at hx
    · rename_i hproperty
      refine ⟨.binding, rfl, stands_of_child? hmember (Option.mem_toList.mp hx) ?_⟩
      rw [hproperty]
      rfl
    · rw [List.mem_singleton.mp hx]
      exact ⟨.member, rfl, hmember⟩
  · rename_i hkind
    exact ⟨.binding, rfl, stands_of_mem_children h hx (hkind ▸ seat_of_binds hplace rfl rfl)⟩
  · rename_i hkind
    have hx := Option.mem_toList.mp hx
    exact ⟨.binding, rfl, stands_of_child? h hx (hkind ▸ seat_of_binds hplace rfl rfl)⟩
  · rename_i hkind
    have hx := Option.mem_toList.mp hx
    exact ⟨.binding, rfl, stands_of_child? h hx (hkind ▸ seat_of_binds hplace rfl rfl)⟩
  · cases hx

/-- A pattern binds no name of a constant. -/
theorem namesConstant_of_mem_bindings {o b : Occurrence} (hplace : place.binds = true)
    (h : seated place o.node = true) (hb : b ∈ o.bindings) : namesConstant b.node = false := by
  induction o using Occurrence.bindings_induction generalizing place with
  | step o ih =>
      rw [Occurrence.bindings_eq] at hb
      split at hb
      · rw [List.mem_singleton.mp hb]
        exact namesConstant_of_binds hplace h
      · obtain ⟨x, hx, hb⟩ := List.mem_flatMap.mp hb
        obtain ⟨inner, hinner, hseated⟩ := seated_of_mem_patternParts hplace h hx
        exact ih x hx hinner hseated hb

theorem namesConstant_of_mem_declared {o b : Occurrence} (hkind : o.node.kind = .variableDeclaration)
    (h : seated place o.node = true) (hb : b ∈ o.declared) : namesConstant b.node = false := by
  obtain ⟨declarator, hdeclarator, hb⟩ := List.mem_flatMap.mp hb
  obtain ⟨id, hid, hb⟩ := Scope.mem_getD_map.mp hb
  have hpart : seated .declarator declarator.node = true :=
    stands_of_mem_children h hdeclarator (by rw [hkind]; rfl)
  have hbinding : seated .binding id.node = true := stands_of_child? hpart hid (seat_id _)
  exact namesConstant_of_mem_bindings rfl hbinding hb

theorem namesConstant_of_mem_hoisted {o b : Occurrence} (h : seated place o.node = true)
    (hb : b ∈ o.hoisted) : namesConstant b.node = false := by
  induction o using Occurrence.visited_induction generalizing place with
  | step o ih =>
      rw [Occurrence.hoisted_eq, List.mem_append, List.mem_flatMap] at hb
      rcases hb with hb | ⟨x, hx, hb⟩
      · split at hb
        · rename_i hvar
          exact namesConstant_of_mem_declared hvar.1 h hb
        · cases hb
      · split at hb
        · cases hb
        · have hedge := hx
          obtain ⟨⟨step, child⟩, hstep, rfl⟩ := List.mem_map.mp hx
          obtain ⟨hfield, hstep⟩ := mem_visited_iff.mp hstep
          obtain ⟨inner, hseat⟩ := exists_seat place hfield
          exact ih _ hedge (stands_step h hstep hseat) hb

theorem namesConstant_of_id {o b : Occurrence}
    (hkind : o.node.kind.isFunction = true ∨ o.node.kind.isClass = true)
    (h : seated place o.node = true) (hb : o.child? "id" = some b) : namesConstant b.node = false := by
  have hseat : place.seat o.node.kind "id" = some .binding := by
    rcases hkind with hkind | hkind
    · rcases Kind.isFunction_iff.mp hkind with hkind | hkind | hkind <;> rw [hkind] <;> rfl
    · rcases Kind.isClass_iff.mp hkind with hkind | hkind <;> rw [hkind] <;> rfl
  have hbinding : seated .binding b.node = true := stands_of_child? h hb hseat
  exact namesConstant_of_binds rfl hbinding

theorem namesConstant_of_mem_statementBindings {o b : Occurrence} (h : seated place o.node = true)
    (hb : b ∈ o.statementBindings) : namesConstant b.node = false := by
  induction hsize : o.node.size using Nat.strongRecOn generalizing o place with
  | ind size ih =>
      -- An export binds what the declaration in it does.
      have hexport : "declaration" ∈ o.node.kind.fields →
          b ∈ (o.child? "declaration").toList.flatMap Occurrence.statementBindings →
          namesConstant b.node = false := by
        intro hfield hb
        obtain ⟨inner, hseat⟩ := exists_seat place hfield
        obtain ⟨declaration, hdeclaration, hb⟩ := List.mem_flatMap.mp hb
        have hdeclaration := Option.mem_toList.mp hdeclaration
        exact ih _ (hsize ▸ Occurrence.size_child_lt hdeclaration)
          (stands_of_child? h hdeclaration hseat) hb rfl
      rw [Occurrence.statementBindings_eq] at hb
      split at hb
      · rename_i hkind
        exact namesConstant_of_mem_declared hkind h hb
      · rename_i hkind
        exact namesConstant_of_id (.inl (by rw [hkind]; rfl)) h (Option.mem_toList.mp hb)
      · rename_i hkind
        exact namesConstant_of_id (.inr (by rw [hkind]; rfl)) h (Option.mem_toList.mp hb)
      · rename_i hkind
        exact hexport (by rw [hkind]; decide) hb
      · rename_i hkind
        exact hexport (by rw [hkind]; decide) hb
      · rename_i hkind
        obtain ⟨specifier, hspecifier, hb⟩ := List.mem_filterMap.mp hb
        have hpart : seated .specifier specifier.node = true :=
          stands_of_mem_children h hspecifier (by rw [hkind]; rfl)
        have hbinding : seated .binding b.node = true := stands_of_child? hpart hb (seat_local _)
        exact namesConstant_of_binds rfl hbinding
      · cases hb

/-- A node shows no name of a constant. -/
theorem namesConstant_of_mem_visibleBindings {o b : Occurrence} (h : seated place o.node = true)
    (hb : b ∈ o.visibleBindings) : namesConstant b.node = false := by
  cases Scope.shows_of_mem_visibleBindings hb with
  | parameter hkind hp hb =>
      have hseat : place.seat o.node.kind "params" = some .binding := by
        rcases Kind.isFunction_iff.mp hkind with hkind | hkind | hkind <;> rw [hkind] <;> rfl
      exact namesConstant_of_mem_bindings rfl (stands_of_mem_children h hp hseat) hb
  | hoisted hkind hbody hb =>
      have hfield : "body" ∈ o.node.kind.fields := by
        rcases Kind.isFunction_iff.mp hkind with hkind | hkind | hkind <;> rw [hkind] <;> decide
      obtain ⟨inner, hseat⟩ := exists_seat place hfield
      exact namesConstant_of_mem_hoisted (stands_of_child? h hbody hseat) hb
  | ownName hkind hb => exact namesConstant_of_id hkind h hb
  | statement hkind hs hb =>
      have hfield : "body" ∈ o.node.kind.fields := by
        rcases Kind.isStatementList_iff.mp hkind with hkind | hkind | hkind <;> rw [hkind] <;> decide
      obtain ⟨inner, hseat⟩ := exists_seat place hfield
      exact namesConstant_of_mem_statementBindings (stands_of_mem_children h hs hseat) hb
  | global hkind hb => exact namesConstant_of_mem_hoisted h hb
  | arm hkind harm hs hb =>
      have harm := stands_of_mem_children h harm (by rw [hkind]; rfl)
      exact namesConstant_of_mem_statementBindings
        (stands_of_mem_children harm hs (seat_consequent _)) hb
  | @head field s hkind hs hb =>
      have hfield : field ∈ o.node.kind.fields := by
        rcases hkind with ⟨hkind, rfl⟩ | ⟨hkind | hkind, rfl⟩ <;> rw [hkind] <;> decide
      obtain ⟨inner, hseat⟩ := exists_seat place hfield
      exact namesConstant_of_mem_statementBindings (stands_of_child? h hs hseat) hb
  | caught hkind hp hb =>
      have hseat : place.seat o.node.kind "param" = some .binding := by rw [hkind]; rfl
      exact namesConstant_of_mem_bindings rfl (stands_of_child? h hp hseat) hb

/-- Below ancestors that pass the check, no name of a constant is bound. -/
theorem isBound_eq_false {ancestors : List Ancestor}
    (h : ∀ a ∈ ancestors, ∃ place, seated place a.node = true)
    (hname : (constantValue? name).isSome = true) : Scope.isBound ancestors name = false := by
  have hnone : (Scope.visible ancestors).findSome? (Scope.matching? [] name) = none := by
    apply List.findSome?_eq_none_iff.mpr
    intro b hb
    obtain ⟨a, ha, hb⟩ := List.mem_flatMap.mp hb
    obtain ⟨place, hseated⟩ := h a ha
    have hconstant := namesConstant_of_mem_visibleBindings (o := a.occurrence) hseated hb
    have hnamed : b.node.isIdentifierNamed name = false := by
      cases hnamed : b.node.isIdentifierNamed name with
      | false => rfl
      | true =>
          unfold isIdentifierNamed at hnamed
          unfold namesConstant at hconstant
          simp_all
    unfold Scope.matching?
    simp [hnamed]
  unfold Scope.isBound
  rw [Scope.resolve_eq, hnone]
  rfl

/-! ## Surroundings -/

/-- A node of the place may stand in the slot, and everything around it may stand where it stands. -/
def Fits : Place → Surroundings → Prop
  | place, [] => place = .plain
  | place, f :: around => ∃ outer, seated outer f.parent = true ∧
      f.step.field ∈ f.parent.kind.fields ∧ outer.seat f.parent.kind f.step.field = some place ∧
      Fits outer around

/-- Whether a node with fields may stand somewhere depends on its kind alone. -/
theorem allows_congr {m : Node} (hkind : m.kind = n.kind) (hfield : name ∈ n.kind.fields) :
    place.allows m = place.allows n := by
  have hother : ∀ leaf : Kind, leaf.fields = [] → (n.kind == leaf) = false := by
    intro leaf hleaf
    apply beq_eq_false_iff_ne.mpr
    intro h
    rw [h, hleaf] at hfield
    cases hfield
  have hnames : namesConstant m = namesConstant n := by
    simp [namesConstant, hkind, hother .identifier rfl]
  have hdirective : isValuelessDirective m = isValuelessDirective n := by
    simp [isValuelessDirective, hkind, hother .literal rfl]
  unfold Place.allows
  rw [hkind, hnames, hdirective]

/-- Writing into a field what may stand there. -/
theorem seated_set_field (h : seated place n = true) (hfield : name ∈ n.kind.fields)
    (hseat : place.seat n.kind name = some inner) (hcontent : standsField Place.seat inner content = true) :
    seated place (n.set name content) = true := by
  apply stands_set h
  · rw [allows_congr (kind_set n name content) hfield]
    exact allows_of_stands h
  · intro inner' hseat'
    rw [hseat] at hseat'
    cases hseat'
    exact hcontent

theorem seated_fill {step : Step} (h : seated place n = true) (hfield : step.field ∈ n.kind.fields)
    (hseat : place.seat n.kind step.field = some inner) (hc : seated inner c = true) :
    seated place (n.fill step (some c)) = true := by
  obtain ⟨field, index⟩ := step
  cases index with
  | none => exact seated_set_field h hfield hseat hc
  | some i =>
      unfold fill
      cases hslots : n.slots? field with
      | none => simpa [hslots] using h
      | some slots =>
          show seated place (n.set field _) = true
          refine seated_set_field h hfield hseat (standsSlots_iff.mpr ?_)
          intro m hm
          rcases List.mem_or_eq_of_mem_set hm with hm | hm
          · exact stands_slot h (slots?_eq_some_iff.mp hslots) hseat hm
          · cases hm
            exact hc

/-- With a node in the slot that may stand there, every ancestor of the slot may stand where it does. -/
theorem seated_of_mem_ancestors_wrap {around : Surroundings} (ho : around.Open)
    (h : Fits place around) (hn : seated place n = true) {a : Ancestor}
    (ha : a ∈ (around.wrap n).ancestors around.path) : ∃ outer, seated outer a.node = true := by
  induction around generalizing place n with
  | nil => cases ha
  | cons f around ih =>
      obtain ⟨outer, hparent, hfield, hseat, hfits⟩ := h
      have hfill : seated outer (f.parent.fill f.step (some n)) = true :=
        seated_fill hparent hfield hseat hn
      rw [Surroundings.path_cons, Surroundings.wrap,
        ancestors_concat (Surroundings.at?_path ho.tail _)] at ha
      rcases List.mem_cons.mp ha with rfl | ha
      · exact ⟨outer, hfill⟩
      · exact ih ho.tail hfits hfill ha

/-- While the slot is empty, too. -/
theorem seated_of_mem_ancestors {around : Surroundings} (ho : around.Open) (h : Fits place around)
    {a : Ancestor} (ha : a ∈ around.root.ancestors around.path) :
    ∃ outer, seated outer a.node = true := by
  cases around with
  | nil => cases ha
  | cons f around =>
      obtain ⟨outer, hparent, hfield, hseat, hfits⟩ := h
      rw [Surroundings.path_cons, Surroundings.root,
        ancestors_concat (Surroundings.at?_path ho.tail _)] at ha
      rcases List.mem_cons.mp ha with rfl | ha
      · exact ⟨outer, hparent⟩
      · exact seated_of_mem_ancestors_wrap ho.tail hfits hparent ha

/-- In such surroundings an expression has the value that it has by itself. -/
theorem evaluate?_of_fits {around : Surroundings} (ho : around.Open) (h : Fits place around)
    (n : Node) : evaluate? (Scope.isBound (around.root.ancestors around.path)) n = constant? n := by
  apply evaluate?_of_unbound
  intro name hname
  exact isBound_eq_false (fun a ha => seated_of_mem_ancestors ho h ha) hname

end Optimize

end Minifier
