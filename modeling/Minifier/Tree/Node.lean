import Minifier.Json.Basic
import Minifier.Tree.Kind

/-!
# Syntax nodes

A node is a kind and an ordered list of named fields. A field holds one child, a list of slots each
of which is a child or a hole (as in `[1,,2]`), or an opaque JSON value.

Nodes carry no identity. Where a pass has to tell two equal nodes apart it names their *positions*
(`Minifier.Tree.Path`).

The recursive functions of the library walk from a node to the nodes that its fields hold, found by
name. They end because these are smaller: `size_child_lt`, `size_children_lt`.
-/

namespace Minifier

/-- The content of a field. -/
inductive Field (α : Type) where
  /-- one child -/
  | child (node : α)
  /-- a list of slots; `none` is a hole -/
  | list (slots : List (Option α))
  /-- an opaque value -/
  | value (json : Json)

/-- A syntax node. -/
structure Node where
  kind : Kind
  fields : List (String × Field Node)

instance : Inhabited Node := ⟨⟨.emptyStatement, []⟩⟩

namespace Field

variable {α : Type}

/-- The child of a field that holds one. -/
def child? : Field α → Option α
  | .child node => some node
  | _ => none

/-- The slots of a field that holds a list. -/
def slots? : Field α → Option (List (Option α))
  | .list slots => some slots
  | _ => none

/-- The value of an opaque field. -/
def value? : Field α → Option Json
  | .value json => some json
  | _ => none

/-- The field holds the JSON value null. -/
def isNull : Field α → Bool
  | .value .null => true
  | _ => false

end Field

namespace Node

/-! ### Reading fields -/

/-- The content of the field with a name. -/
def get? (n : Node) (name : String) : Option (Field Node) := Entries.get? n.fields name

/-- The node has a field with the name, be it null. -/
def has (n : Node) (name : String) : Bool := (n.get? name).isSome

/-- The single child in a field. -/
def child? (n : Node) (name : String) : Option Node := (n.get? name).bind Field.child?

/-- The slots in a field. -/
def slots? (n : Node) (name : String) : Option (List (Option Node)) :=
  (n.get? name).bind Field.slots?

/-- The children in a list field, without the holes. -/
def children (n : Node) (name : String) : List Node :=
  ((n.slots? name).getD []).filterMap id

/-- The opaque value in a field. -/
def value? (n : Node) (name : String) : Option Json := (n.get? name).bind Field.value?

/-- The string in a field. -/
def text? (n : Node) (name : String) : Option String := (n.value? name).bind Json.string?

/-- The boolean in a field; what is absent or no boolean counts as false. -/
def flag (n : Node) (name : String) : Bool := ((n.value? name).bind Json.bool?).getD false

/-- The name that an identifier carries. -/
def name? (n : Node) : Option String := n.text? "name"

/-- The node is an identifier with the given name. -/
def isIdentifierNamed (n : Node) (name : String) : Bool :=
  n.kind == .identifier && n.name? == some name

/-! ### Writing fields -/

/-- Write a field, in its place if it exists and at the end if not. -/
def set (n : Node) (name : String) (content : Field Node) : Node :=
  { n with fields := Entries.set n.fields name content }

/-- Write an opaque value. -/
def setValue (n : Node) (name : String) (json : Json) : Node := n.set name (.value json)

/-- Take a field out. -/
def erase (n : Node) (name : String) : Node := { n with fields := Entries.erase n.fields name }

/-- Write the name that an identifier carries. -/
def setName (n : Node) (name : String) : Node := n.setValue "name" (.string name)

/-! ### Reading after writing -/

@[simp] theorem kind_set (n : Node) (name : String) (content : Field Node) :
    (n.set name content).kind = n.kind := rfl

@[simp] theorem kind_setName (n : Node) (name : String) : (n.setName name).kind = n.kind := rfl

@[simp] theorem get?_set_self (n : Node) (name : String) (content : Field Node) :
    (n.set name content).get? name = some content :=
  Entries.get?_set_self n.fields name content

theorem get?_set_of_ne {n : Node} {name other : String} {content : Field Node}
    (h : other ≠ name) : (n.set name content).get? other = n.get? other :=
  Entries.get?_set_of_ne h

@[simp] theorem set_set (n : Node) (name : String) (first second : Field Node) :
    (n.set name first).set name second = n.set name second := by
  simp [set]

/-- Writing what is there already changes nothing. -/
theorem set_eq_self {n : Node} {name : String} {content : Field Node}
    (h : n.get? name = some content) : n.set name content = n := by
  obtain ⟨kind, fields⟩ := n
  exact congrArg (Node.mk kind) (Entries.set_eq_self h)

@[simp] theorem erase_set (n : Node) (name : String) (content : Field Node) :
    (n.set name content).erase name = n.erase name := by
  simp [set, erase]

@[simp] theorem name?_setName (n : Node) (name : String) : (n.setName name).name? = some name := by
  simp [name?, text?, value?, setName, setValue, Field.value?, Json.string?]

/-- A field has a child iff it holds one. -/
theorem child?_eq_some_iff {n c : Node} {name : String} :
    n.child? name = some c ↔ n.get? name = some (.child c) := by
  cases h : n.get? name with
  | none => simp [child?, h]
  | some content => cases content <;> simp [child?, h, Field.child?]

/-- A field has slots iff it holds a list. -/
theorem slots?_eq_some_iff {n : Node} {name : String} {slots : List (Option Node)} :
    n.slots? name = some slots ↔ n.get? name = some (.list slots) := by
  cases h : n.get? name with
  | none => simp [slots?, h]
  | some content => cases content <;> simp [slots?, h, Field.slots?]

/-! ### Sizes -/

mutual

/-- The number of nodes in a tree. -/
def size : Node → Nat
  | ⟨_, fields⟩ => 1 + sizeOfFields fields

/-- The number of nodes in a list of fields. -/
def sizeOfFields : List (String × Field Node) → Nat
  | [] => 0
  | (_, field) :: rest => sizeOfField field + sizeOfFields rest

/-- The number of nodes in a field. -/
def sizeOfField : Field Node → Nat
  | .child node => size node
  | .list slots => sizeOfSlots slots
  | .value _ => 0

/-- The number of nodes in a list of slots. -/
def sizeOfSlots : List (Option Node) → Nat
  | [] => 0
  | none :: rest => sizeOfSlots rest
  | some node :: rest => size node + sizeOfSlots rest

end

theorem size_pos (n : Node) : 0 < n.size := by
  obtain ⟨kind, fields⟩ := n
  rw [size]
  omega

theorem sizeOfField_le_of_mem {fields : List (String × Field Node)} {name : String}
    {field : Field Node} (h : (name, field) ∈ fields) :
    sizeOfField field ≤ sizeOfFields fields := by
  induction fields with
  | nil => simp at h
  | cons entry rest ih =>
    obtain ⟨other, content⟩ := entry
    rcases List.mem_cons.mp h with heq | hmem
    · cases heq
      simp [sizeOfFields]
    · have := ih hmem
      simp only [sizeOfFields]
      omega

theorem size_le_of_mem_slots {slots : List (Option Node)} {node : Node}
    (h : some node ∈ slots) : size node ≤ sizeOfSlots slots := by
  induction slots with
  | nil => simp at h
  | cons slot rest ih =>
    rcases List.mem_cons.mp h with heq | hmem
    · subst heq
      simp [sizeOfSlots]
    · have := ih hmem
      cases slot <;> simp only [sizeOfSlots] <;> omega

theorem sizeOfField_lt_of_get? {n : Node} {name : String} {field : Field Node}
    (h : n.get? name = some field) : sizeOfField field < n.size := by
  obtain ⟨kind, fields⟩ := n
  have : sizeOfField field ≤ sizeOfFields fields :=
    sizeOfField_le_of_mem (Entries.mem_of_get?_eq_some h)
  simp only [size]
  omega

/-- A child is smaller than its parent. -/
theorem size_child_lt {n c : Node} {name : String} (h : n.child? name = some c) :
    c.size < n.size := by
  unfold child? at h
  obtain ⟨field, hget, hfield⟩ := Option.bind_eq_some_iff.mp h
  have := sizeOfField_lt_of_get? hget
  cases field <;> simp_all [Field.child?, sizeOfField]

/-- A child in a list is smaller than its parent. -/
theorem size_children_lt {n c : Node} {name : String} (h : c ∈ n.children name) :
    c.size < n.size := by
  unfold children slots? at h
  cases hget : n.get? name with
  | none => simp [hget] at h
  | some field =>
    have hlt := sizeOfField_lt_of_get? hget
    cases field with
    | child node => simp [hget, Field.slots?] at h
    | value json => simp [hget, Field.slots?] at h
    | list slots =>
      have hmem : some c ∈ slots := by simpa [hget, Field.slots?] using h
      have := size_le_of_mem_slots hmem
      simp only [sizeOfField] at hlt
      omega

/-! ### Equality

Two nodes are equal when their kinds are and their fields agree in order, name and content. -/

mutual

/-- Equality of nodes. -/
def same : Node → Node → Bool
  | ⟨kind, fields⟩, ⟨kind', fields'⟩ => kind == kind' && sameFields fields fields'

/-- Equality of field lists. -/
def sameFields : List (String × Field Node) → List (String × Field Node) → Bool
  | [], [] => true
  | (name, field) :: rest, (name', field') :: rest' =>
    name == name' && sameField field field' && sameFields rest rest'
  | _, _ => false

/-- Equality of field contents. -/
def sameField : Field Node → Field Node → Bool
  | .child node, .child node' => same node node'
  | .list slots, .list slots' => sameSlots slots slots'
  | .value json, .value json' => json.same json'
  | _, _ => false

/-- Equality of slot lists. -/
def sameSlots : List (Option Node) → List (Option Node) → Bool
  | [], [] => true
  | none :: rest, none :: rest' => sameSlots rest rest'
  | some node :: rest, some node' :: rest' => same node node' && sameSlots rest rest'
  | _, _ => false

end

end Node

end Minifier
