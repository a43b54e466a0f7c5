import Minifier.Proofs.Entries
import Minifier.Tree.Document

/-!
# Nodes and their JSON values

A JSON value is read as a node by its shape, and a node is written back field by field. Nothing is lost
either way.

* What was read is written as it was, with the `type` of every node object in front
  (`document_ofJson`).
* What is written is read as the node that it was (`ofJson_document`), provided that a reader can
  tell the opaque values of the node from nodes (`hidesNoNode`), and that its names can be those of an
  object (`isWellNamed`). Nodes that were read are such nodes (`all_of_ofJson`).
* For such a node the two ways of writing are one (`toJson_eq_document`).

**Main result**: `conversion_lossless`.
-/

namespace Minifier

/-! ## Values as they are written back -/

namespace Json

mutual

/-- No object in the value has a name twice. -/
def isDistinct : Json → Bool
  | .array items => areDistinct items
  | .object members => decide (members.map Prod.fst).Nodup && membersDistinct members
  | _ => true

/-- No object in the items has a name twice. -/
def areDistinct : List Json → Bool
  | [] => true
  | item :: rest => isDistinct item && areDistinct rest

/-- No object in the values of the members has a name twice. -/
def membersDistinct : List (String × Json) → Bool
  | [] => true
  | (_, json) :: rest => isDistinct json && membersDistinct rest

end

theorem areDistinct_iff {items : List Json} :
    areDistinct items = true ↔ ∀ item ∈ items, item.isDistinct = true := by
  induction items with
  | nil => simp [areDistinct]
  | cons item rest ih => rw [areDistinct, Bool.and_eq_true, ih, List.forall_mem_cons]

theorem membersDistinct_iff {members : List (String × Json)} :
    membersDistinct members = true ↔ ∀ entry ∈ members, entry.2.isDistinct = true := by
  induction members with
  | nil => simp [membersDistinct]
  | cons entry rest ih =>
      obtain ⟨name, json⟩ := entry
      rw [membersDistinct, Bool.and_eq_true, ih, List.forall_mem_cons]

theorem isDistinct_array_iff {items : List Json} :
    (Json.array items).isDistinct = true ↔ ∀ item ∈ items, item.isDistinct = true := by
  rw [isDistinct, areDistinct_iff]

theorem isDistinct_object_iff {members : List (String × Json)} :
    (Json.object members).isDistinct = true ↔
      (members.map Prod.fst).Nodup ∧ ∀ entry ∈ members, entry.2.isDistinct = true := by
  rw [isDistinct, Bool.and_eq_true, decide_eq_true_eq, membersDistinct_iff]

mutual

/-- Induction on a value: what holds of it if it holds of its parts holds of every value. -/
@[elab_as_elim] theorem induction {motive : Json → Prop}
    (object : ∀ members, (∀ entry ∈ members, motive entry.2) → motive (.object members))
    (array : ∀ items, (∀ item ∈ items, motive item) → motive (.array items))
    (scalar : ∀ json, (∀ members, json ≠ .object members) → (∀ items, json ≠ .array items) → motive json) :
    (json : Json) → motive json
  | .object members => object members (forall_members object array scalar members)
  | .array items => array items (forall_items object array scalar items)
  | .null | .bool _ | .number _ | .string _ => scalar _ nofun nofun

theorem forall_members {motive : Json → Prop}
    (object : ∀ members, (∀ entry ∈ members, motive entry.2) → motive (.object members))
    (array : ∀ items, (∀ item ∈ items, motive item) → motive (.array items))
    (scalar : ∀ json, (∀ members, json ≠ .object members) → (∀ items, json ≠ .array items) → motive json) :
    (members : List (String × Json)) → ∀ entry ∈ members, motive entry.2
  | [], _, h => nomatch h
  | (_, json) :: rest, _, h => (List.mem_cons.mp h).elim
      (fun heq => heq ▸ Json.induction object array scalar json)
      (forall_members object array scalar rest _)

theorem forall_items {motive : Json → Prop}
    (object : ∀ members, (∀ entry ∈ members, motive entry.2) → motive (.object members))
    (array : ∀ items, (∀ item ∈ items, motive item) → motive (.array items))
    (scalar : ∀ json, (∀ members, json ≠ .object members) → (∀ items, json ≠ .array items) → motive json) :
    (items : List Json) → ∀ item ∈ items, motive item
  | [], _, h => nomatch h
  | json :: rest, _, h => (List.mem_cons.mp h).elim
      (fun heq => heq ▸ Json.induction object array scalar json)
      (forall_items object array scalar rest _)

end

mutual

/-- The value with the `type` of every node object in front of its other members. Values that are no nodes and
hold no nodes as slots are opaque, and stay as they are with all that is in them. -/
def typeFirst : Json → Json
  | .object members =>
    match typeName? members with
    | some name => .object (("type", .string name) :: typeFirstMembers members)
    | none => .object members
  | .array items => .array (if items.all isSlot then typeFirstItems items else items)
  | json => json

/-- The members of a node object but its `type`. -/
def typeFirstMembers : List (String × Json) → List (String × Json)
  | [] => []
  | (name, json) :: rest =>
    if name = "type" then typeFirstMembers rest
    else (name, typeFirst json) :: typeFirstMembers rest

/-- The items of an array of slots. -/
def typeFirstItems : List Json → List Json
  | [] => []
  | item :: rest => typeFirst item :: typeFirstItems rest

end

/-- The value is read as neither a node nor a list of slots. -/
def isOpaque : Json → Bool
  | .object members => (typeName? members).isNone
  | .array items => !items.all isSlot
  | _ => true

end Json

/-! ## Properties of all nodes in a tree -/

namespace Node

mutual

/-- Every node in the tree has the property, in whatever field it stands. -/
def all (p : Node → Bool) : Node → Bool
  | ⟨kind, fields⟩ => p ⟨kind, fields⟩ && allInFields p fields

/-- Every node in the fields has the property. -/
def allInFields (p : Node → Bool) : List (String × Field Node) → Bool
  | [] => true
  | (_, field) :: rest => allInField p field && allInFields p rest

/-- Every node in the field has the property. -/
def allInField (p : Node → Bool) : Field Node → Bool
  | .child node => all p node
  | .list slots => allInSlots p slots
  | .value _ => true

/-- Every node in the slots has the property. -/
def allInSlots (p : Node → Bool) : List (Option Node) → Bool
  | [] => true
  | none :: rest => allInSlots p rest
  | some node :: rest => all p node && allInSlots p rest

end

theorem allInFields_iff {p : Node → Bool} {fields : List (String × Field Node)} :
    allInFields p fields = true ↔ ∀ entry ∈ fields, allInField p entry.2 = true := by
  induction fields with
  | nil => simp [allInFields]
  | cons entry rest ih =>
      obtain ⟨name, field⟩ := entry
      rw [allInFields, Bool.and_eq_true, ih, List.forall_mem_cons]

theorem allInSlots_iff {p : Node → Bool} {slots : List (Option Node)} :
    allInSlots p slots = true ↔ ∀ node, some node ∈ slots → node.all p = true := by
  induction slots with
  | nil => simp [allInSlots]
  | cons slot rest ih =>
      cases slot with
      | none => simp [allInSlots, ih]
      | some node => simp [allInSlots, ih]

/-- No opaque value of the node would be read as a node or as a list of slots. -/
def hidesNoNode (n : Node) : Bool := n.fields.all fun entry => entry.2.value?.all Json.isOpaque

/-- The kind is the one that its name stands for, no name of a field is repeated, and none is `type`. -/
def isWellNamed (n : Node) : Bool :=
  n.kind == .ofName n.kind.name && decide ("type" :: n.fields.map Prod.fst).Nodup

end Node

/-! ## Written back as it was read -/

open Json Node

theorem isSlot_iff {item : Json} :
    item.isSlot = true ↔ item = .null ∨ ∃ n, Field.ofJson item = .child n := by
  cases item with
  | object members =>
      simp only [isSlot, isTyped, Field.ofJson]
      cases typeName? members <;> simp
  | array items =>
      simp only [isSlot, isTyped, Field.ofJson]
      split <;> simp
  | _ => simp [isSlot, isTyped, Field.ofJson]

mutual

theorem document_ofJson : (json : Json) → (Field.ofJson json).document = json.typeFirst
  | .object members => by
      rw [Field.ofJson, typeFirst]
      cases typeName? members with
      | none => rfl
      | some name =>
          have hmembers := encodeFields_fieldsOfMembers members
          simp only [Field.document, encodeField, encode, Kind.name_ofName, hmembers, id]
  | .array items => by
      rw [Field.ofJson, typeFirst]
      by_cases hslots : items.all isSlot = true
      · rw [if_pos hslots, if_pos hslots, ← encodeSlots_slotsOfItems items hslots]
        rfl
      · rw [if_neg hslots, if_neg hslots]
        rfl
  | .null | .bool _ | .number _ | .string _ => rfl

theorem encodeFields_fieldsOfMembers :
    (members : List (String × Json)) → encodeFields id (fieldsOfMembers members) = typeFirstMembers members
  | [] => rfl
  | (name, json) :: rest => by
      have hrest := encodeFields_fieldsOfMembers rest
      rw [fieldsOfMembers, typeFirstMembers]
      split
      · exact hrest
      · rw [encodeFields, hrest, ← document_ofJson json]
        rfl

theorem encodeSlots_slotsOfItems : (items : List Json) → items.all isSlot = true →
    encodeSlots id (slotsOfItems items) = typeFirstItems items
  | [], _ => rfl
  | item :: rest, h => by
      rw [List.all_cons, Bool.and_eq_true] at h
      rw [slotsOfItems, typeFirstItems, ← document_ofJson item, ← encodeSlots_slotsOfItems rest h.2]
      rcases isSlot_iff.mp h.1 with rfl | ⟨n, hn⟩
      · rfl
      · rw [hn]
        rfl

end

/-- Only an object whose `type` is a string is read as a node. -/
theorem ofJson_eq_ok_iff {json : Json} {n : Node} :
    Node.ofJson json = .ok n ↔ Field.ofJson json = .child n := by
  unfold Node.ofJson
  split
  case h_1 node hfield => rw [hfield, Except.ok.injEq, Field.child.injEq]
  all_goals simp_all

theorem typeName?_eq_some_iff {members : List (String × Json)} {name : String} :
    typeName? members = some name ↔ Entries.get? members "type" = some (.string name) := by
  rw [typeName?, Option.bind_eq_some_iff]
  constructor
  · rintro ⟨json, hget, hstring⟩
    cases json <;> simp_all [Json.string?]
  · intro hget
    exact ⟨_, hget, rfl⟩

/-- A value is read as a node exactly if it is an object whose `type` is a string. -/
theorem exists_ofJson_iff {json : Json} :
    (∃ n, Node.ofJson json = .ok n) ↔
      ∃ members name, json = .object members ∧ Entries.get? members "type" = some (.string name) := by
  simp only [ofJson_eq_ok_iff, ← typeName?_eq_some_iff]
  cases json with
  | object members =>
      rw [Field.ofJson]
      cases hname : typeName? members <;> simp [hname]
  | array items =>
      rw [Field.ofJson]
      split <;> simp
  | _ => simp [Field.ofJson]

/-! ## Nodes that were read -/

theorem isOpaque_of_ofJson {json value : Json} (h : Field.ofJson json = .value value) :
    value.isOpaque = true := by
  cases json with
  | object members =>
      rw [Field.ofJson] at h
      cases hname : typeName? members <;> rw [hname] at h <;> cases h
      rw [isOpaque, hname]
      rfl
  | array items =>
      rw [Field.ofJson] at h
      split at h <;> cases h
      rw [isOpaque, Bool.not_eq_true']
      exact Bool.eq_false_iff.mpr ‹_›
  | _ =>
      cases h
      rfl

theorem mem_fieldsOfMembers {members : List (String × Json)} {name : String} {field : Field Node}
    (h : (name, field) ∈ fieldsOfMembers members) :
    ∃ json, (name, json) ∈ members ∧ field = Field.ofJson json := by
  induction members with
  | nil => cases h
  | cons member rest ih =>
      obtain ⟨other, json⟩ := member
      have hrest : (name, field) ∈ fieldsOfMembers rest →
          ∃ value, (name, value) ∈ (other, json) :: rest ∧ field = Field.ofJson value := by
        intro hmem
        obtain ⟨value, hvalue, hfield⟩ := ih hmem
        exact ⟨value, List.mem_cons_of_mem _ hvalue, hfield⟩
      rw [fieldsOfMembers] at h
      split at h
      · exact hrest h
      · rcases List.mem_cons.mp h with heq | hmem
        · cases heq
          exact ⟨json, List.mem_cons_self, rfl⟩
        · exact hrest hmem

theorem mem_slotsOfItems {items : List Json} {node : Node} (h : some node ∈ slotsOfItems items) :
    ∃ item ∈ items, Field.ofJson item = .child node := by
  induction items with
  | nil => cases h
  | cons item rest ih =>
      rw [slotsOfItems] at h
      rcases List.mem_cons.mp h with heq | hmem
      · refine ⟨item, List.mem_cons_self, ?_⟩
        cases hfield : Field.ofJson item <;> simp_all [Field.child?]
      · obtain ⟨item', hitem, hnode⟩ := ih hmem
        exact ⟨item', List.mem_cons_of_mem _ hitem, hnode⟩

theorem names_fieldsOfMembers (members : List (String × Json)) :
    (fieldsOfMembers members).map Prod.fst = (members.map Prod.fst).filter (· ≠ "type") := by
  induction members with
  | nil => rfl
  | cons member rest ih =>
      obtain ⟨name, json⟩ := member
      rw [fieldsOfMembers]
      by_cases hname : name = "type" <;> simp [hname, ih]

theorem hidesNoNode_of_members (kind : Kind) (members : List (String × Json)) :
    hidesNoNode ⟨kind, fieldsOfMembers members⟩ = true := by
  rw [hidesNoNode, List.all_eq_true]
  rintro ⟨name, field⟩ hmem
  obtain ⟨json, _, rfl⟩ := mem_fieldsOfMembers hmem
  rw [Option.all_eq_true]
  intro value hvalue
  have hfield : Field.ofJson json = .value value := by
    cases hcontent : Field.ofJson json <;> simp_all [Field.value?]
  exact isOpaque_of_ofJson hfield

theorem isWellNamed_of_members (name : String) {members : List (String × Json)}
    (h : (members.map Prod.fst).Nodup) :
    isWellNamed ⟨.ofName name, fieldsOfMembers members⟩ = true := by
  rw [isWellNamed, Kind.name_ofName, names_fieldsOfMembers]
  simp [h.filter]

/-- A property of values that passes to their parts, and that gives every node which a value stands for
another property. -/
structure Supplies (q : Json → Bool) (p : Node → Bool) : Prop where
  member : ∀ {members}, q (.object members) = true → ∀ entry ∈ members, q entry.2 = true
  item : ∀ {items}, q (.array items) = true → ∀ item ∈ items, q item = true
  node : ∀ name {members}, q (.object members) = true → p ⟨.ofName name, fieldsOfMembers members⟩ = true

theorem allInField_ofJson {q : Json → Bool} {p : Node → Bool} (h : Supplies q p) (json : Json)
    (hjson : q json = true) : allInField p (Field.ofJson json) = true := by
  induction json using Json.induction with
  | object members ih =>
      rw [Field.ofJson]
      cases typeName? members with
      | none => rfl
      | some name =>
          rw [allInField, all, h.node name hjson, Bool.true_and, allInFields_iff]
          rintro ⟨other, field⟩ hfield
          obtain ⟨json, hmem, rfl⟩ := mem_fieldsOfMembers hfield
          exact ih _ hmem (h.member hjson _ hmem)
  | array items ih =>
      rw [Field.ofJson]
      split
      · rw [allInField, allInSlots_iff]
        intro node hnode
        obtain ⟨item, hmem, hitem⟩ := mem_slotsOfItems hnode
        have hall := ih item hmem (h.item hjson item hmem)
        rwa [hitem, allInField] at hall
      · rfl
  | scalar json hobject harray =>
      cases json with
      | object members => exact absurd rfl (hobject members)
      | array items => exact absurd rfl (harray items)
      | _ => rfl

theorem supplies_hidesNoNode : Supplies (fun _ => true) hidesNoNode where
  member _ _ _ := rfl
  item _ _ _ := rfl
  node name members _ := hidesNoNode_of_members (.ofName name) members

/-- What was read hides no node, at every depth. -/
theorem all_hidesNoNode_of_ofJson {json : Json} {n : Node} (hn : Field.ofJson json = .child n) :
    n.all hidesNoNode = true := by
  have hall := allInField_ofJson supplies_hidesNoNode json rfl
  rwa [hn, allInField] at hall

theorem supplies_isWellNamed : Supplies Json.isDistinct isWellNamed where
  member h := (isDistinct_object_iff.mp h).2
  item h := isDistinct_array_iff.mp h
  node name _ h := isWellNamed_of_members name (isDistinct_object_iff.mp h).1

/-- Nodes that were read hide no nodes and are well named, at every depth. -/
theorem all_of_ofJson {json : Json} {n : Node} (hjson : json.isDistinct = true)
    (hn : Node.ofJson json = .ok n) : n.all hidesNoNode = true ∧ n.all isWellNamed = true := by
  rw [ofJson_eq_ok_iff] at hn
  have hnamed := allInField_ofJson supplies_isWellNamed json hjson
  rw [hn, allInField] at hnamed
  exact ⟨all_hidesNoNode_of_ofJson hn, hnamed⟩

/-! ## Read as it was written -/

theorem ofJson_of_isOpaque {json : Json} (h : json.isOpaque = true) : Field.ofJson json = .value json := by
  cases json with
  | object members =>
      rw [isOpaque, Option.isNone_iff_eq_none] at h
      rw [Field.ofJson, h]
  | array items =>
      rw [isOpaque, Bool.not_eq_true'] at h
      rw [Field.ofJson, h]
      rfl
  | _ => rw [Field.ofJson] <;> nofun

mutual

theorem ofJson_document : (n : Node) → n.all hidesNoNode = true → n.all isWellNamed = true →
    Field.ofJson n.document = .child n
  | ⟨kind, fields⟩, hhides, hnamed => by
      rw [all, Bool.and_eq_true] at hhides hnamed
      have hname := hnamed.1
      rw [isWellNamed, Bool.and_eq_true, beq_iff_eq, decide_eq_true_eq, List.nodup_cons] at hname
      have hfields := fieldsOfMembers_encodeFields fields hhides.1 hname.2.1 hhides.2 hnamed.2
      have htype : typeName? (("type", .string kind.name) :: encodeFields id fields) = some kind.name := by
        rfl
      rw [Node.document, encode, Field.ofJson, id, htype]
      simp only [fieldsOfMembers, if_true, hfields, ← hname.1]

theorem fieldsOfMembers_encodeFields : (fields : List (String × Field Node)) →
    (fields.all fun entry => entry.2.value?.all Json.isOpaque) = true → "type" ∉ fields.map Prod.fst →
    allInFields hidesNoNode fields = true → allInFields isWellNamed fields = true →
    fieldsOfMembers (encodeFields id fields) = fields
  | [], _, _, _, _ => rfl
  | (name, field) :: rest, hopaque, hnames, hhides, hnamed => by
      rw [List.all_cons, Bool.and_eq_true] at hopaque
      rw [List.map_cons, List.mem_cons, not_or] at hnames
      rw [allInFields, Bool.and_eq_true] at hhides hnamed
      have hfield := ofJson_encodeField field hopaque.1 hhides.1 hnamed.1
      have hrest := fieldsOfMembers_encodeFields rest hopaque.2 hnames.2 hhides.2 hnamed.2
      rw [encodeFields, fieldsOfMembers, if_neg (Ne.symm hnames.1), hfield, hrest]

theorem ofJson_encodeField : (field : Field Node) → field.value?.all Json.isOpaque = true →
    allInField hidesNoNode field = true → allInField isWellNamed field = true →
    Field.ofJson (encodeField id field) = field
  | .child node, _, hhides, hnamed => ofJson_document node hhides hnamed
  | .list slots, _, hhides, hnamed => by
      obtain ⟨hslots, hitems⟩ := slotsOfItems_encodeSlots slots hhides hnamed
      rw [encodeField, Field.ofJson, if_pos hslots, hitems]
  | .value json, hopaque, _, _ => ofJson_of_isOpaque hopaque

theorem slotsOfItems_encodeSlots : (slots : List (Option Node)) →
    allInSlots hidesNoNode slots = true → allInSlots isWellNamed slots = true →
    (encodeSlots id slots).all isSlot = true ∧ slotsOfItems (encodeSlots id slots) = slots
  | [], _, _ => ⟨rfl, rfl⟩
  | none :: rest, hhides, hnamed => by
      obtain ⟨hslots, hitems⟩ := slotsOfItems_encodeSlots rest hhides hnamed
      rw [encodeSlots, slotsOfItems, hitems]
      exact ⟨by simpa [isSlot] using hslots, rfl⟩
  | some node :: rest, hhides, hnamed => by
      rw [allInSlots, Bool.and_eq_true] at hhides hnamed
      obtain ⟨hslots, hitems⟩ := slotsOfItems_encodeSlots rest hhides.2 hnamed.2
      have hnode : Field.ofJson (encode id node) = .child node := ofJson_document node hhides.1 hnamed.1
      rw [encodeSlots, slotsOfItems, hitems, hnode, List.all_cons, hslots,
        isSlot_iff.mpr (.inr ⟨node, hnode⟩)]
      exact ⟨rfl, rfl⟩

end

/-! ## The two ways of writing -/

theorem names_encodeFields (finish : List (String × Json) → List (String × Json))
    (fields : List (String × Field Node)) :
    (encodeFields finish fields).map Prod.fst = fields.map Prod.fst := by
  induction fields with
  | nil => rfl
  | cons entry rest ih => rw [encodeFields, List.map_cons, ih, List.map_cons]

mutual

theorem toJson_eq_document : (n : Node) → n.all isWellNamed = true → n.toJson = n.document
  | ⟨kind, fields⟩, h => by
      rw [all, Bool.and_eq_true] at h
      have hnames := h.1
      rw [isWellNamed, Bool.and_eq_true, decide_eq_true_eq] at hnames
      rw [toJson, Node.document, encode, encode, encodeFields_ofPairs fields h.2, id, Entries.ofPairs_eq_self]
      rw [List.map_cons, names_encodeFields]
      exact hnames.2

theorem encodeFields_ofPairs : (fields : List (String × Field Node)) →
    allInFields isWellNamed fields = true → encodeFields Entries.ofPairs fields = encodeFields id fields
  | [], _ => rfl
  | (name, field) :: rest, h => by
      rw [allInFields, Bool.and_eq_true] at h
      rw [encodeFields, encodeFields, encodeField_ofPairs field h.1, encodeFields_ofPairs rest h.2]

theorem encodeField_ofPairs : (field : Field Node) → allInField isWellNamed field = true →
    encodeField Entries.ofPairs field = encodeField id field
  | .child node, h => toJson_eq_document node h
  | .list slots, h => by rw [encodeField, encodeField, encodeSlots_ofPairs slots h]
  | .value _, _ => rfl

theorem encodeSlots_ofPairs : (slots : List (Option Node)) → allInSlots isWellNamed slots = true →
    encodeSlots Entries.ofPairs slots = encodeSlots id slots
  | [], _ => rfl
  | none :: rest, h => by rw [encodeSlots, encodeSlots, encodeSlots_ofPairs rest h]
  | some node :: rest, h => by
      rw [allInSlots, Bool.and_eq_true] at h
      have hnode : encode Entries.ofPairs node = encode id node := toJson_eq_document node h.1
      rw [encodeSlots, encodeSlots, hnode, encodeSlots_ofPairs rest h.2]

end

/-- Conversion between nodes and JSON values loses nothing. A value whose names are distinct is read as a
node exactly if it is an object whose `type` is a string, and the node is written as the value with the `type`
of every node object in front. A node that hides no node and is well named is read back as it was, and
its texts are those of its value. -/
theorem conversion_lossless :
    (∀ json : Json, json.isDistinct = true →
      ((∃ n, Node.ofJson json = .ok n) ↔
        ∃ members name, json = .object members ∧ Entries.get? members "type" = some (.string name)) ∧
      ∀ n, Node.ofJson json = .ok n → n.toJson = json.typeFirst) ∧
    ∀ n : Node, n.all hidesNoNode = true → n.all isWellNamed = true →
      Node.ofJson n.toJson = .ok n ∧ n.text = n.toJson.compact ∧
        ∀ compact, n.render compact = n.toJson.document compact := by
  constructor
  · intro json hdistinct
    refine ⟨exists_ofJson_iff, ?_⟩
    intro n hn
    have hnamed := (all_of_ofJson hdistinct hn).2
    rw [toJson_eq_document n hnamed, ← document_ofJson json, ofJson_eq_ok_iff.mp hn]
    rfl
  · intro n hhides hnamed
    rw [toJson_eq_document n hnamed, ofJson_eq_ok_iff]
    exact ⟨ofJson_document n hhides hnamed, rfl, fun _ => rfl⟩

/-- A node of an unknown kind, with its `type` last, that holds a hole, an empty list, an array that is opaque for
one number in it and an object that is opaque for its numeric `type`. -/
def mixedValue : Json :=
  let name : Json := .object [("name", .string "x"), ("type", .string "Identifier")]
  .object [("slots", .array [.null, name]), ("none", .array []),
    ("opaque", .array [.number (.int 1), name]),
    ("untyped", .object [("type", .number (.int 0)), ("inner", name)]), ("type", .string "Unheard")]

/-- Only the two objects that are nodes get their `type` in front. -/
theorem conversion_lossless_mixedValue :
    mixedValue.isDistinct = true ∧
      mixedValue.typeFirst = .object [("type", .string "Unheard"),
        ("slots", .array [.null, .object [("type", .string "Identifier"), ("name", .string "x")]]),
        ("none", .array []),
        ("opaque", .array [.number (.int 1),
          .object [("name", .string "x"), ("type", .string "Identifier")]]),
        ("untyped", .object [("type", .number (.int 0)),
          ("inner", .object [("name", .string "x"), ("type", .string "Identifier")])])] ∧
      ∃ n, Node.ofJson mixedValue = .ok n ∧ n.toJson = mixedValue.typeFirst ∧
        Node.ofJson n.toJson = .ok n ∧ n.text = n.toJson.compact ∧
        n.render false = n.toJson.document false := by
  have hdistinct : mixedValue.isDistinct = true := by decide +kernel
  obtain ⟨hnode, hback⟩ := conversion_lossless.1 mixedValue hdistinct
  obtain ⟨n, hn⟩ := hnode.mpr ⟨_, "Unheard", rfl, rfl⟩
  obtain ⟨hhides, hnamed⟩ := all_of_ofJson hdistinct hn
  obtain ⟨hread, htext, hrender⟩ := conversion_lossless.2 n hhides hnamed
  exact ⟨hdistinct, rfl, n, hn, hback n hn, hread, htext, hrender false⟩

end Minifier
