import Minifier.Proofs.Entries
import Minifier.Tree.Path

/-!
# Nodes with identities

The passes tell nodes apart by position. A node can also be told by an *identity*, a number that is given to
it when it is made and that goes along with it when it is moved. `Tagged` is a syntax tree whose nodes have
identities, and `Tagged.forget` is the tree without them.

* `Tagged.ids` lists the identities of all nodes of a tree.
* `Node.number` gives new identities to all nodes of a tree, one after the other: to a node before what is
  below it, or behind. They are the next numbers, each given once (`perm_ids_number`).
* Fields are read and written as in a node without identity (`forget_get?`, `forget_set`, `forget_erase`). A
  field that is written counts in the identities for the one that it takes the place of (`count_set`).
-/

namespace Minifier

/-- A syntax node with an identity. -/
structure Tagged where
  id : Nat
  kind : Kind
  fields : List (String × Field Tagged)

namespace Tagged

mutual

/-- The tree without identities. -/
def forget : Tagged → Node
  | ⟨_, kind, fields⟩ => ⟨kind, forgetFields fields⟩

/-- The fields without identities. -/
def forgetFields : List (String × Field Tagged) → List (String × Field Node)
  | [] => []
  | (name, field) :: rest => (name, forgetField field) :: forgetFields rest

/-- The field without identities. -/
def forgetField : Field Tagged → Field Node
  | .child node => .child (forget node)
  | .list slots => .list (forgetSlots slots)
  | .value json => .value json

/-- The slots without identities. -/
def forgetSlots : List (Option Tagged) → List (Option Node)
  | [] => []
  | none :: rest => none :: forgetSlots rest
  | some node :: rest => some (forget node) :: forgetSlots rest

end

mutual

/-- The identities of a node and of all nodes below it, in whatever field. -/
def ids : Tagged → List Nat
  | ⟨id, _, fields⟩ => id :: idsOfFields fields

/-- The identities in a list of fields. -/
def idsOfFields : List (String × Field Tagged) → List Nat
  | [] => []
  | (_, field) :: rest => idsOfField field ++ idsOfFields rest

/-- The identities in a field. -/
def idsOfField : Field Tagged → List Nat
  | .child node => ids node
  | .list slots => idsOfSlots slots
  | .value _ => []

/-- The identities in a list of slots. -/
def idsOfSlots : List (Option Tagged) → List Nat
  | [] => []
  | none :: rest => idsOfSlots rest
  | some node :: rest => ids node ++ idsOfSlots rest

end

/-! ### Fields -/

/-- The content of the field with a name. -/
def get? (t : Tagged) (name : String) : Option (Field Tagged) := Entries.get? t.fields name

/-- The single child in a field. -/
def child? (t : Tagged) (name : String) : Option Tagged := (t.get? name).bind Field.child?

/-- The slots in a field. -/
def slots? (t : Tagged) (name : String) : Option (List (Option Tagged)) :=
  (t.get? name).bind Field.slots?

/-- Write a field, in its place if it exists and at the end if not. -/
def set (t : Tagged) (name : String) (content : Field Tagged) : Tagged :=
  { t with fields := Entries.set t.fields name content }

/-- Take a field out. -/
def erase (t : Tagged) (name : String) : Tagged := { t with fields := Entries.erase t.fields name }

@[simp] theorem get?_set_self (t : Tagged) (name : String) (content : Field Tagged) :
    (t.set name content).get? name = some content :=
  Entries.get?_set_self t.fields name content

theorem get?_set_of_ne {t : Tagged} {name other : String} {content : Field Tagged}
    (h : other ≠ name) : (t.set name content).get? other = t.get? other :=
  Entries.get?_set_of_ne h

theorem get?_erase_of_ne {t : Tagged} {name other : String} (h : other ≠ name) :
    (t.erase name).get? other = t.get? other :=
  Entries.get?_erase_of_ne h

@[simp] theorem set_set (t : Tagged) (name : String) (first second : Field Tagged) :
    (t.set name first).set name second = t.set name second := by
  simp [set]

theorem set_eq_self {t : Tagged} {name : String} {content : Field Tagged}
    (h : t.get? name = some content) : t.set name content = t := by
  obtain ⟨id, kind, fields⟩ := t
  exact congrArg (Tagged.mk id kind) (Entries.set_eq_self h)

theorem child?_eq_some_iff {t c : Tagged} {name : String} :
    t.child? name = some c ↔ t.get? name = some (.child c) := by
  cases h : t.get? name with
  | none => simp [child?, h]
  | some content => cases content <;> simp [child?, h, Field.child?]

theorem slots?_eq_some_iff {t : Tagged} {name : String} {slots : List (Option Tagged)} :
    t.slots? name = some slots ↔ t.get? name = some (.list slots) := by
  cases h : t.get? name with
  | none => simp [slots?, h]
  | some content => cases content <;> simp [slots?, h, Field.slots?]

/-! ## Forgetting identities -/

@[simp] theorem kind_forget (t : Tagged) : t.forget.kind = t.kind := by
  obtain ⟨id, kind, fields⟩ := t
  rfl

theorem forgetFields_eq_map (fields : List (String × Field Tagged)) :
    forgetFields fields = fields.map fun entry => (entry.1, forgetField entry.2) := by
  induction fields with
  | nil => rfl
  | cons entry rest ih => rw [forgetFields, ih, List.map_cons]

theorem forgetSlots_eq_map (slots : List (Option Tagged)) :
    forgetSlots slots = slots.map (·.map forget) := by
  induction slots with
  | nil => rfl
  | cons slot rest ih => cases slot <;> simp [forgetSlots, ih]

theorem forget_get? (t : Tagged) (name : String) :
    t.forget.get? name = (t.get? name).map forgetField := by
  obtain ⟨id, kind, fields⟩ := t
  simp only [forget, Node.get?, get?, forgetFields_eq_map, Entries.get?_mapValues]

theorem forget_set (t : Tagged) (name : String) (content : Field Tagged) :
    (t.set name content).forget = t.forget.set name (forgetField content) := by
  obtain ⟨id, kind, fields⟩ := t
  simp only [set, forget, Node.set, forgetFields_eq_map, Entries.set_mapValues]

theorem forget_erase (t : Tagged) (name : String) :
    (t.erase name).forget = t.forget.erase name := by
  obtain ⟨id, kind, fields⟩ := t
  simp only [erase, forget, Node.erase, forgetFields_eq_map, Entries.erase_mapValues]

theorem forget_child? (t : Tagged) (name : String) :
    t.forget.child? name = (t.child? name).map forget := by
  rw [Node.child?, forget_get?, child?]
  cases t.get? name with
  | none => rfl
  | some content => cases content <;> rfl

theorem forget_slots? (t : Tagged) (name : String) :
    t.forget.slots? name = (t.slots? name).map forgetSlots := by
  rw [Node.slots?, forget_get?, slots?]
  cases t.get? name with
  | none => rfl
  | some content => cases content <;> rfl

/-! ## Counting identities

How often an identity comes up. The two sides of each equation are what is left and what it is made of. -/

theorem count_mk (i id : Nat) (kind : Kind) (fields : List (String × Field Tagged)) :
    (ids ⟨id, kind, fields⟩).count i = [id].count i + (idsOfFields fields).count i := by
  rw [ids, ← List.singleton_append, List.count_append]

theorem count_fields_set {fields : List (String × Field Tagged)} {name : String}
    {old : Field Tagged} (h : Entries.get? fields name = some old) (new : Field Tagged) (i : Nat) :
    (idsOfFields (Entries.set fields name new)).count i + (idsOfField old).count i
      = (idsOfFields fields).count i + (idsOfField new).count i := by
  induction fields with
  | nil => cases h
  | cons entry rest ih =>
      obtain ⟨k, v⟩ := entry
      by_cases hk : k = name
      · simp only [Entries.get?, hk, if_true, Option.some.injEq] at h
        simp only [Entries.set, hk, if_true, idsOfFields, List.count_append, h]
        omega
      · simp only [Entries.get?, hk, if_false] at h
        have hrest := ih h
        simp only [Entries.set, hk, if_false, idsOfFields, List.count_append]
        omega

theorem count_fields_set_of_none {fields : List (String × Field Tagged)} {name : String}
    (h : Entries.get? fields name = none) (new : Field Tagged) (i : Nat) :
    (idsOfFields (Entries.set fields name new)).count i
      = (idsOfFields fields).count i + (idsOfField new).count i := by
  induction fields with
  | nil => simp [Entries.set, idsOfFields]
  | cons entry rest ih =>
      obtain ⟨k, v⟩ := entry
      by_cases hk : k = name
      · simp [Entries.get?, hk] at h
      · simp only [Entries.get?, hk, if_false] at h
        have hrest := ih h
        simp only [Entries.set, hk, if_false, idsOfFields, List.count_append]
        omega

/-- A field that is written takes the place of the field that was there. -/
theorem count_set {t : Tagged} {name : String} {old : Field Tagged} (h : t.get? name = some old)
    (new : Field Tagged) (i : Nat) :
    (t.set name new).ids.count i + (idsOfField old).count i
      = t.ids.count i + (idsOfField new).count i := by
  obtain ⟨id, kind, fields⟩ := t
  have hget : Entries.get? fields name = some old := h
  have hfields := count_fields_set hget new i
  simp only [set, count_mk]
  omega

theorem count_set_of_none {t : Tagged} {name : String} (h : t.get? name = none)
    (new : Field Tagged) (i : Nat) :
    (t.set name new).ids.count i = t.ids.count i + (idsOfField new).count i := by
  obtain ⟨id, kind, fields⟩ := t
  have hget : Entries.get? fields name = none := h
  have hfields := count_fields_set_of_none hget new i
  simp only [set, count_mk]
  omega

/-- Whatever field is written, nothing comes in but what is written. -/
theorem count_set_le (t : Tagged) (name : String) (new : Field Tagged) (i : Nat) :
    (t.set name new).ids.count i ≤ t.ids.count i + (idsOfField new).count i := by
  cases h : t.get? name with
  | none => exact Nat.le_of_eq (count_set_of_none h new i)
  | some old =>
      have := count_set h new i
      omega

theorem count_erase_le (t : Tagged) (name : String) (i : Nat) :
    (t.erase name).ids.count i ≤ t.ids.count i := by
  obtain ⟨id, kind, fields⟩ := t
  have hfields : (idsOfFields (Entries.erase fields name)).count i ≤ (idsOfFields fields).count i := by
    induction fields with
    | nil => exact Nat.le_refl _
    | cons entry rest ih =>
        obtain ⟨k, v⟩ := entry
        by_cases hk : k = name
        · simp only [Entries.erase, hk, if_true, idsOfFields, List.count_append]
          omega
        · simp only [Entries.erase, hk, if_false, idsOfFields, List.count_append]
          omega
  simp only [erase, count_mk]
  omega

theorem count_slots_append (i : Nat) (first second : List (Option Tagged)) :
    (idsOfSlots (first ++ second)).count i = (idsOfSlots first).count i + (idsOfSlots second).count i := by
  induction first with
  | nil => simp [idsOfSlots]
  | cons slot rest ih =>
      cases slot with
      | none => simpa [idsOfSlots] using ih
      | some node =>
          simp only [List.cons_append, idsOfSlots, List.count_append, ih]
          omega

/-- The identities in a slot. -/
def idsOfSlot (slot : Option Tagged) : List Nat := (slot.map ids).getD []

theorem count_slots_cons (i : Nat) (slot : Option Tagged) (rest : List (Option Tagged)) :
    (idsOfSlots (slot :: rest)).count i = (idsOfSlot slot).count i + (idsOfSlots rest).count i := by
  cases slot <;> simp [idsOfSlots, idsOfSlot]

theorem count_slots_set {slots : List (Option Tagged)} {k : Nat} {old : Option Tagged}
    (h : slots[k]? = some old) (new : Option Tagged) (i : Nat) :
    (idsOfSlots (slots.set k new)).count i + (idsOfSlot old).count i
      = (idsOfSlots slots).count i + (idsOfSlot new).count i := by
  induction slots generalizing k with
  | nil => simp at h
  | cons slot rest ih =>
      cases k with
      | zero =>
          rw [List.getElem?_cons_zero, Option.some.injEq] at h
          subst h
          simp only [List.set_cons_zero, count_slots_cons]
          omega
      | succ k =>
          have hrest := ih (k := k) (by simpa using h)
          simp only [List.set_cons_succ, count_slots_cons]
          omega

/-! ## Numbering -/

/-- Whether a node gets its identity before the nodes below it or behind them. -/
inductive Order where
  | first
  | last
deriving DecidableEq, Repr

end Tagged

namespace Node

open Tagged (Order)

mutual

/-- Give identities to the nodes of a tree, from a number on. -/
def number (order : Order) : Node → Nat → Tagged
  | ⟨kind, fields⟩, next =>
    match order with
    | .first => ⟨next, kind, numberFields order fields (next + 1)⟩
    | .last => ⟨next + sizeOfFields fields, kind, numberFields order fields next⟩

/-- Give identities to the nodes in a list of fields. -/
def numberFields (order : Order) :
    List (String × Field Node) → Nat → List (String × Field Tagged)
  | [], _ => []
  | (name, field) :: rest, next =>
    (name, numberField order field next) :: numberFields order rest (next + sizeOfField field)

/-- Give identities to the nodes in a field. -/
def numberField (order : Order) : Field Node → Nat → Field Tagged
  | .child node, next => .child (number order node next)
  | .list slots, next => .list (numberSlots order slots next)
  | .value json, _ => .value json

/-- Give identities to the nodes in a list of slots. -/
def numberSlots (order : Order) : List (Option Node) → Nat → List (Option Tagged)
  | [], _ => []
  | none :: rest, next => none :: numberSlots order rest next
  | some node :: rest, next =>
    some (number order node next) :: numberSlots order rest (next + node.size)

end

mutual

/-- A numbered tree is the tree that was numbered. -/
theorem forget_number (order : Order) : ∀ (n : Node) (next : Nat), (n.number order next).forget = n
  | ⟨kind, fields⟩, next => by
      cases order with
      | first => rw [number, Tagged.forget, forget_numberFields]
      | last => rw [number, Tagged.forget, forget_numberFields]

theorem forget_numberFields (order : Order) : ∀ (fields : List (String × Field Node)) (next : Nat),
    Tagged.forgetFields (numberFields order fields next) = fields
  | [], _ => rfl
  | (name, field) :: rest, next => by
      rw [numberFields, Tagged.forgetFields, forget_numberField, forget_numberFields]

theorem forget_numberField (order : Order) : ∀ (field : Field Node) (next : Nat),
    Tagged.forgetField (numberField order field next) = field
  | .child node, next => by rw [numberField, Tagged.forgetField, forget_number]
  | .list slots, next => by rw [numberField, Tagged.forgetField, forget_numberSlots]
  | .value json, next => rfl

theorem forget_numberSlots (order : Order) : ∀ (slots : List (Option Node)) (next : Nat),
    Tagged.forgetSlots (numberSlots order slots next) = slots
  | [], _ => rfl
  | none :: rest, next => by rw [numberSlots, Tagged.forgetSlots, forget_numberSlots]
  | some node :: rest, next => by
      rw [numberSlots, Tagged.forgetSlots, forget_number, forget_numberSlots]

end

mutual

/-- The identities of a numbered tree are as many numbers as it has nodes, each once. -/
theorem perm_ids_number (order : Order) : ∀ (n : Node) (next : Nat),
    (n.number order next).ids.Perm (List.range' next n.size)
  | ⟨kind, fields⟩, next => by
      cases order with
      | first =>
          rw [number, Tagged.ids, size, Nat.add_comm 1, List.range'_succ]
          exact (perm_ids_numberFields .first fields (next + 1)).cons next
      | last =>
          rw [number, Tagged.ids, size, Nat.add_comm 1, List.range'_concat, Nat.one_mul]
          exact ((perm_ids_numberFields .last fields next).cons _).trans
            (List.perm_append_singleton _ _).symm

theorem perm_ids_numberFields (order : Order) : ∀ (fields : List (String × Field Node)) (next : Nat),
    (Tagged.idsOfFields (numberFields order fields next)).Perm (List.range' next (sizeOfFields fields))
  | [], _ => .nil
  | (name, field) :: rest, next => by
      rw [numberFields, Tagged.idsOfFields, sizeOfFields, ← List.range'_append_1]
      exact (perm_ids_numberField order field next).append (perm_ids_numberFields order rest _)

theorem perm_ids_numberField (order : Order) : ∀ (field : Field Node) (next : Nat),
    (Tagged.idsOfField (numberField order field next)).Perm (List.range' next (sizeOfField field))
  | .child node, next => by
      rw [numberField, Tagged.idsOfField, sizeOfField]
      exact perm_ids_number order node next
  | .list slots, next => by
      rw [numberField, Tagged.idsOfField, sizeOfField]
      exact perm_ids_numberSlots order slots next
  | .value json, next => .nil

theorem perm_ids_numberSlots (order : Order) : ∀ (slots : List (Option Node)) (next : Nat),
    (Tagged.idsOfSlots (numberSlots order slots next)).Perm (List.range' next (sizeOfSlots slots))
  | [], _ => .nil
  | none :: rest, next => by
      rw [numberSlots, Tagged.idsOfSlots, sizeOfSlots]
      exact perm_ids_numberSlots order rest next
  | some node :: rest, next => by
      rw [numberSlots, Tagged.idsOfSlots, sizeOfSlots, ← List.range'_append_1]
      exact (perm_ids_number order node next).append (perm_ids_numberSlots order rest _)

end

end Node

end Minifier
