import Minifier.Proofs.Edit.Canonical

/-!
# Deep patches as a merge of JSON values

A deep patch works on nodes, slots and opaque values, one member after the other. Seen from the JSON values of
the nodes it is one merge of two values, all of whose members meet at once.

* `Json.merge?` is that merge. It fails where the patch has a `type` that is no string, or an item that
  cannot fill a slot.
* A deep patch of a canonical node succeeds exactly if the merge of the values does, and then makes
  the node with the merged value (`patch_deep_eq_merge`).
* What it does not reach (`Spares`) it leaves as it was.
-/

namespace Minifier

/-- What an edit made, if nothing stopped it. -/
def Attempt.success? {α : Type} (p : Attempt α) : Option α :=
  match p.error with
  | none => some p.result
  | some _ => none

theorem Attempt.success?_map {α β : Type} (f : α → β) (p : Attempt α) :
    (p.map f).success? = p.success?.map f := by
  obtain ⟨result, error⟩ := p
  cases error <;> rfl

theorem Attempt.success?_eq_some_iff {α : Type} {p : Attempt α} {a : α} :
    p.success? = some a ↔ p = ⟨a, none⟩ := by
  obtain ⟨result, error⟩ := p
  cases error <;> simp [success?]

/-! ## The merge of two values -/

namespace Json

mutual

/-- A value laid over an opaque one: objects merge member by member, all else is overwritten. -/
def overlay : Json → Json → Json
  | .object old, .object new => .object (overlayMembers old new ++ Entries.additions old new)
  | _, new => new

/-- Members of an opaque object where others are laid over them. -/
def overlayMembers : List (String × Json) → List (String × Json) → List (String × Json)
  | [], _ => []
  | (name, value) :: rest, new =>
    let value := match Entries.get? new name with
      | some json => overlay value json
      | none => value
    (name, value) :: overlayMembers rest new

end

/-- The value as the `type` of a node. -/
def asType? : Json → Option Json
  | .string kind => some (.string kind)
  | _ => none

/-- The value as the content of a slot. -/
def asSlot? (json : Json) : Option Json := if json.isSlot then some json.typeFirst else none

/-- The value is an object. -/
def isObject : Json → Bool
  | .object _ => true
  | _ => false

mutual

/-- Merge a value into another. Node objects merge with objects, and arrays of slots with arrays; other
objects are opaque. Elsewhere the new value overwrites the old one, with the `type` of node objects in front. -/
def merge? : Json → Json → Option Json
  | .object old, .object new =>
    if (typeName? old).isSome then
      (mergeMembers? old new).map fun kept =>
        .object (kept ++ (Entries.additions old new).map fun entry => (entry.1, entry.2.typeFirst))
    else some (overlay (.object old) (.object new))
  | .array old, .array new =>
    if old.all isSlot then (mergeItems? old new).map .array else some (Json.array new).typeFirst
  | _, new => some new.typeFirst

/-- What becomes of the members of a node object. -/
def mergeMembers? : List (String × Json) → List (String × Json) → Option (List (String × Json))
  | [], _ => some []
  | (name, value) :: rest, new => do
    let value ← (match Entries.get? new name with
      | some json => if name = "type" then json.asType? else merge? value json
      | none => some value)
    let rest ← mergeMembers? rest new
    some ((name, value) :: rest)

/-- Merge items into slots, one by one: an object into a node object. Any other item takes the slot, if it
can, and so do the items that are left over; slots that are left over stay. -/
def mergeItems? : List Json → List Json → Option (List Json)
  | [], new => new.mapM asSlot?
  | old, [] => some old
  | value :: old, item :: new => do
    let value ← (if value.isObject && item.isObject then merge? value item else item.asSlot?)
    let items ← mergeItems? old new
    some (value :: items)

end

/-- What a member of a patch makes of the member of a node object that it meets. -/
def mergeMember? (name : String) (value? : Option Json) (json : Json) : Option Json :=
  match value? with
  | some value => if name = "type" then json.asType? else value.merge? json
  | none => some json.typeFirst

theorem mergeMembers?_eq (old new : List (String × Json)) :
    mergeMembers? old new = old.mapM (Entries.mergePair? mergeMember? new) := by
  induction old with
  | nil => rfl
  | cons entry rest ih =>
      obtain ⟨name, value⟩ := entry
      rw [mergeMembers?, ih, List.mapM_cons, Entries.mergePair?]
      dsimp only
      cases Entries.get? new name with
      | none => rfl
      | some json =>
          dsimp only [mergeMember?]
          cases (if name = "type" then json.asType? else value.merge? json) <;> rfl

theorem mergeItems?_cons (value item : Json) (old new : List Json) :
    mergeItems? (value :: old) (item :: new) =
      (if value.isObject && item.isObject then merge? value item else item.asSlot?).bind fun value =>
        (mergeItems? old new).map (value :: ·) := by
  rw [mergeItems?]
  simp only [Option.map_eq_bind]
  rfl

/-- All members of a node object meet those of an object at once. -/
theorem merge?_object {old : List (String × Json)} (h : (typeName? old).isSome = true)
    (new : List (String × Json)) :
    merge? (.object old) (.object new) = (Entries.mergeAll? mergeMember? old new).map .object := by
  have hadded : ∀ members : List (String × Json),
      members.mapM (fun entry => (mergeMember? entry.1 none entry.2).map (entry.1, ·))
        = some (members.map fun entry => (entry.1, entry.2.typeFirst)) := by
    intro members
    exact List.mapM_pure
  rw [merge?, if_pos h, mergeMembers?_eq, Entries.mergeAll?, hadded]
  cases old.mapM (Entries.mergePair? mergeMember? new) <;> rfl

end Json

namespace Patch

open Json Node

/-! ## Opaque objects -/

/-- What a member of a patch makes of the member of an opaque object that it meets. -/
def overwrite? (_ : String) (value? : Option Json) (json : Json) : Option Json :=
  some (value?.elim json (mergeJson · json))

theorem mergeEach?_overwrite? (old new : List (String × Json)) :
    Entries.mergeEach? overwrite? old new = some (mergeObject old new) := by
  induction new generalizing old with
  | nil => rfl
  | cons entry rest ih =>
      obtain ⟨name, json⟩ := entry
      rw [Entries.mergeEach?, overwrite?, Option.bind_some, ih, mergeObject]
      cases Entries.get? old name <;> rfl

theorem mapM_overwrite? {old new : List (String × Json)}
    (h : ∀ entry ∈ old, ∀ member ∈ new, mergeJson entry.2 member.2 = entry.2.overlay member.2) :
    old.mapM (Entries.mergePair? overwrite? new) = some (overlayMembers old new) := by
  induction old with
  | nil => rfl
  | cons entry rest ih =>
      obtain ⟨name, value⟩ := entry
      rw [List.forall_mem_cons] at h
      rw [List.mapM_cons, ih h.2, overlayMembers, Entries.mergePair?]
      cases hget : Entries.get? new name with
      | none => rfl
      | some json =>
          have hvalue := h.1 _ (Entries.mem_of_get?_eq_some hget)
          simp [overwrite?, hvalue]

/-- Members that are merged into an opaque object one after the other are laid over it. -/
theorem mergeObject_eq_overlay {old new : List (String × Json)} (hold : (old.map Prod.fst).Nodup)
    (hnew : (new.map Prod.fst).Nodup)
    (h : ∀ entry ∈ old, ∀ member ∈ new, mergeJson entry.2 member.2 = entry.2.overlay member.2) :
    mergeObject old new = overlayMembers old new ++ Entries.additions old new := by
  have hadded : ∀ members : List (String × Json),
      members.mapM (fun entry => (overwrite? entry.1 none entry.2).map (entry.1, ·)) = some members := by
    intro members
    exact List.mapM_pure.trans (congrArg some (List.map_id members))
  have hloop := mergeEach?_overwrite? old new
  rw [Entries.mergeEach?_eq_mergeAll? hold hnew, Entries.mergeAll?, mapM_overwrite? h, hadded] at hloop
  exact (Option.some.inj hloop).symm

theorem mergeJson_eq_overlay : (json : Json) → json.isDistinct = true →
    ∀ old : Json, old.isDistinct = true → mergeJson old json = old.overlay json := by
  refine distinct_induction fun json _ hmembers _ old hold => ?_
  cases old with
  | object old =>
      cases json with
      | object new =>
          obtain ⟨hnames, hparts⟩ := hmembers new rfl
          rw [isDistinct_object_iff] at hold
          rw [mergeJson, overlay, mergeObject_eq_overlay hold.1 hnames]
          intro entry hentry member hmember
          exact hparts member hmember _ (hold.2 entry hentry)
      | _ => rfl
  | _ => cases json <;> rfl

end Patch

/-! ## Nodes -/

namespace Node

/-- The members of the value of a node. -/
def members (n : Node) : List (String × Json) :=
  ("type", .string n.kind.name) :: encodeFields Entries.ofPairs n.fields

theorem encodeFields_eq_map (finish : List (String × Json) → List (String × Json))
    (fields : List (String × Field Node)) :
    encodeFields finish fields = fields.map fun entry => (entry.1, encodeField finish entry.2) := by
  induction fields with
  | nil => rfl
  | cons entry rest ih => rw [encodeFields, ih, List.map_cons]

theorem toJson_eq_members {n : Node} (h : ("type" :: n.fields.map Prod.fst).Nodup) :
    n.toJson = .object n.members := by
  obtain ⟨kind, fields⟩ := n
  rw [toJson, encode, members, Entries.ofPairs_eq_self]
  rwa [List.map_cons, names_encodeFields]

theorem get?_members (n : Node) {name : String} (h : name ≠ "type") :
    Entries.get? n.members name = (n.get? name).map (encodeField Entries.ofPairs) := by
  rw [members, encodeFields_eq_map, Entries.get?, if_neg (Ne.symm h), Entries.get?_mapValues]
  rfl

theorem members_set (n : Node) {name : String} (h : name ≠ "type") (field : Field Node) :
    (n.set name field).members = Entries.set n.members name (encodeField Entries.ofPairs field) := by
  rw [members, members, Entries.set, if_neg (Ne.symm h), encodeFields_eq_map, encodeFields_eq_map,
    Entries.set_mapValues]
  rfl

theorem members_kind (n : Node) (name : String) :
    ({ n with kind := .ofName name } : Node).members = Entries.set n.members "type" (.string name) := by
  rw [members, members, Entries.set, if_pos rfl, Kind.name_ofName]

/-- The document of a node has distinct names if the node has and its fields have. -/
theorem isDistinct_document_iff {n : Node} :
    n.document.isDistinct = true ↔ ("type" :: n.fields.map Prod.fst).Nodup ∧
      ∀ entry ∈ n.fields, entry.2.document.isDistinct = true := by
  obtain ⟨kind, fields⟩ := n
  rw [Node.document, encode, id, Json.isDistinct_object_iff, List.map_cons, names_encodeFields,
    List.forall_mem_cons, encodeFields_eq_map, List.forall_mem_map]
  exact and_congr_right' (and_iff_right rfl)

end Node

namespace Patch

open Json Node

variable {n m : Node} {members : List (String × Json)}

theorem encodeField_ofJson {json : Json} (h : json.isDistinct = true) :
    encodeField Entries.ofPairs (Field.ofJson json) = json.typeFirst := by
  rw [encodeField_ofPairs _ (allInField_ofJson supplies_isWellNamed json h), ← document_ofJson]
  rfl

/-- Merging the value into the field succeeds exactly if it can be merged into the value of the field, and
does the same. -/
def MeetsAsValue (field : Field Node) (json : Json) : Prop :=
  (mergeField field json).success?.map (encodeField Entries.ofPairs)
    = (encodeField Entries.ofPairs field).merge? json

/-- The loop over the members of a patch, seen from the members of the node. -/
theorem success?_mergeNode (hnames : (members.map Prod.fst).Nodup)
    (hdistinct : ∀ entry ∈ members, entry.2.isDistinct = true)
    (hmeets : ∀ entry ∈ members, ∀ field, n.get? entry.1 = some field → MeetsAsValue field entry.2) :
    (mergeNode true n members).success?.map Node.members
      = Entries.mergeEach? mergeMember? n.members members := by
  induction members generalizing n with
  | nil => rfl
  | cons entry rest ih =>
      obtain ⟨name, json⟩ := entry
      rw [List.map_cons, List.nodup_cons] at hnames
      rw [List.forall_mem_cons] at hdistinct hmeets
      rw [mergeNode_cons, Entries.mergeEach?]
      by_cases hname : name = "type"
      · subst hname
        have htype : Entries.get? n.members "type" = some (.string n.kind.name) := rfl
        rw [if_pos rfl, htype]
        cases json with
        | string kind =>
            have hrest := @ih { n with kind := .ofName kind } hnames.2 hdistinct.2 hmeets.2
            rwa [members_kind] at hrest
        | _ => rfl
      · rw [if_neg hname, get?_members n hname]
        -- What this member does to its field is no concern of those to come, which name others.
        have hrest : ∀ field, (mergeNode true (n.set name field) rest).success?.map Node.members
            = Entries.mergeEach? mergeMember?
                (Entries.set n.members name (encodeField Entries.ofPairs field)) rest := by
          intro field
          rw [← members_set n hname]
          apply ih hnames.2 hdistinct.2
          intro entry hmem other hget
          have hne : entry.1 ≠ name := ne_of_not_mem_keys hnames.1 hmem
          rw [get?_set_of_ne hne] at hget
          exact hmeets.2 entry hmem other hget
        cases hget : n.get? name with
        | none =>
            have hmade := hrest (Field.ofJson json)
            rwa [encodeField_ofJson hdistinct.1] at hmade
        | some field =>
            have hfield := hmeets.1 field hget
            rw [Option.map_some, mergeMember?, if_neg hname, ← hfield, merged]
            rcases mergeField field json with ⟨field', _ | error⟩
            · exact hrest field'
            · rfl

theorem meetsAsValue_child_iff {n : Node} {members : List (String × Json)} :
    MeetsAsValue (.child n) (.object members) ↔
      (mergeNode true n members).success?.map toJson = n.toJson.merge? (.object members) := by
  rw [MeetsAsValue, mergeField, Attempt.success?_map, Option.map_map]
  rfl

/-- A patch of a node, by what its members do. -/
theorem meetsAsValue_child (hn : ("type" :: n.fields.map Prod.fst).Nodup)
    (hnames : (members.map Prod.fst).Nodup) (hdistinct : ∀ entry ∈ members, entry.2.isDistinct = true)
    (hmeets : ∀ entry ∈ members, ∀ field, n.get? entry.1 = some field → MeetsAsValue field entry.2) :
    MeetsAsValue (.child n) (.object members) := by
  -- The names of what is made are distinct too, so that no member is lost when it is written.
  have hmade : (mergeNode true n members).success?.map toJson
      = (mergeNode true n members).success?.map (.object ∘ Node.members) := by
    apply Option.map_congr
    intro m hm
    have hmerges := merges_of_mergeNode (Attempt.success?_eq_some_iff.mp hm)
    exact toJson_eq_members (hmerges.nodup_names hn)
  have hkeys : (n.members.map Prod.fst).Nodup := by
    rwa [Node.members, List.map_cons, names_encodeFields]
  rw [meetsAsValue_child_iff, hmade, ← Option.map_map, success?_mergeNode hnames hdistinct hmeets,
    Entries.mergeEach?_eq_mergeAll? hkeys hnames, toJson_eq_members hn, merge?_object rfl]

/-! ## Slots -/

/-- The item for a slot. -/
def slotJson (slot : Option Node) : Json := slot.elim .null toJson

theorem encodeSlots_eq_map (finish : List (String × Json) → List (String × Json))
    (slots : List (Option Node)) :
    encodeSlots finish slots = slots.map fun slot => slot.elim .null (encode finish) := by
  induction slots with
  | nil => rfl
  | cons slot rest ih => cases slot <;> rw [encodeSlots, ih] <;> rfl

/-- What an item makes of a slot whose content it does not merge with. -/
theorem slotOfJson_eq {item : Json} (h : item.isDistinct = true) :
    (slotOfJson item).toOption.map slotJson = item.asSlot? := by
  by_cases hnull : item = .null
  · subst hnull
    rfl
  · have hread : slotOfJson item = (Node.ofJson item).map some := by
      unfold slotOfJson
      split
      · contradiction
      · rfl
    rw [hread, asSlot?]
    cases hnode : Node.ofJson item with
    | ok node =>
        rw [ofJson_eq_ok_iff] at hnode
        have hslot : item.isSlot = true := isSlot_iff.mpr (.inr ⟨node, hnode⟩)
        rw [if_pos hslot, ← encodeField_ofJson h, hnode]
        rfl
    | error error =>
        have hslot : ¬ item.isSlot = true := by
          rw [isSlot_iff]
          rintro (hitem | ⟨node, hitem⟩)
          · exact hnull hitem
          · rw [← ofJson_eq_ok_iff, hnode] at hitem
            cases hitem
        rw [if_neg hslot]
        rfl

theorem mergeSlots_of_nothing {slots : List (Option Node)} {item : Json} (items : List Json)
    (h : ∀ node members, slots.head? = some (some node) → item ≠ .object members) :
    (mergeSlots slots (item :: items)).success? =
      (slotOfJson item).toOption.bind fun slot => (mergeSlots slots.tail items).success?.map (slot :: ·) := by
  rw [mergeSlots]
  · cases slotOfJson item with
    | error error => rfl
    | ok slot => exact Attempt.success?_map ..
  · rintro node rest members rfl rfl
    exact h node members rfl rfl

theorem mergeSlots_of_node (node : Node) (members : List (String × Json)) (slots : List (Option Node))
    (items : List Json) :
    (mergeSlots (some node :: slots) (.object members :: items)).success? =
      (mergeNode true node members).success?.bind fun node =>
        (mergeSlots slots items).success?.map (some node :: ·) := by
  rw [mergeSlots]
  rcases mergeNode true node members with ⟨node', _ | error⟩
  · exact Attempt.success?_map ..
  · rfl

theorem success?_mergeSlots {slots : List (Option Node)} {items : List Json}
    (hdistinct : ∀ item ∈ items, item.isDistinct = true)
    (hmeets : ∀ item ∈ items, ∀ node, some node ∈ slots → MeetsAsValue (.child node) item) :
    (mergeSlots slots items).success?.map (·.map slotJson) = mergeItems? (slots.map slotJson) items := by
  induction items generalizing slots with
  | nil =>
      rw [mergeSlots]
      cases slots <;> rfl
  | cons item items ih =>
      rw [List.forall_mem_cons] at hdistinct hmeets
      -- Where there is no node to merge with, the item takes the slot.
      have hread : (∀ node members, slots.head? = some (some node) → item ≠ .object members) →
          (mergeSlots slots (item :: items)).success?.map (·.map slotJson) =
            item.asSlot?.bind fun value =>
              (mergeItems? (slots.tail.map slotJson) items).map (value :: ·) := by
        intro hnothing
        have hrest := @ih slots.tail hdistinct.2 fun item hitem node hnode =>
          hmeets.2 item hitem node (List.mem_of_mem_tail hnode)
        rw [mergeSlots_of_nothing items hnothing, ← hrest, ← slotOfJson_eq hdistinct.1]
        cases (slotOfJson item).toOption <;> simp [Function.comp_def]
      rcases slots with _ | ⟨_ | node, slots⟩
      · rw [hread (by simp), List.tail_nil, List.map_nil, mergeItems?, mergeItems?, List.mapM_cons]
        simp only [Option.map_eq_bind]
        rfl
      · rw [hread (by simp), List.map_cons, mergeItems?_cons]
        rfl
      · have hnode : (slotJson (some node)).isObject = true := by
          obtain ⟨kind, fields⟩ := node
          rfl
        rw [List.map_cons, mergeItems?_cons, hnode, Bool.true_and]
        cases item with
        | object members =>
            have hmade := meetsAsValue_child_iff.mp (hmeets.1 node List.mem_cons_self)
            have hrest := @ih slots hdistinct.2 fun item hitem node hnode =>
              hmeets.2 item hitem node (List.mem_cons_of_mem _ hnode)
            rw [mergeSlots_of_node, ← hrest, isObject, if_pos rfl]
            show _ = Option.bind (merge? node.toJson (.object members)) _
            rw [← hmade]
            cases (mergeNode true node members).success? <;> simp [Function.comp_def, slotJson]
        | _ => exact hread (by simp)

theorem isDistinct_of_mem_slots {slots : List (Option Node)} {node : Node}
    (h : (Field.list slots).document.isDistinct = true) (hmem : some node ∈ slots) :
    node.document.isDistinct = true := by
  rw [Field.document, encodeField, isDistinct_array_iff, encodeSlots_eq_map, List.forall_mem_map] at h
  exact h _ hmem

theorem isSlot_slotJson {slots : List (Option Node)}
    (h : ∀ node, some node ∈ slots → node.document.isDistinct = true) :
    (slots.map slotJson).all isSlot = true := by
  rw [List.all_map, List.all_eq_true]
  intro slot hmem
  cases slot with
  | none => rfl
  | some node =>
      have hnode := toJson_eq_members (isDistinct_document_iff.mp (h node hmem)).1
      rw [Function.comp_apply, slotJson, Option.elim_some, hnode]
      rfl

theorem meetsAsValue_list {slots : List (Option Node)} {items : List Json}
    (hslots : ∀ node, some node ∈ slots → node.document.isDistinct = true)
    (hdistinct : ∀ item ∈ items, item.isDistinct = true)
    (hmeets : ∀ item ∈ items, ∀ node, some node ∈ slots → MeetsAsValue (.child node) item) :
    MeetsAsValue (.list slots) (.array items) := by
  have hencode : ∀ slots, encodeField Entries.ofPairs (.list slots) = .array (slots.map slotJson) := by
    intro slots
    rw [encodeField, encodeSlots_eq_map]
    rfl
  rw [MeetsAsValue, mergeField, Attempt.success?_map, hencode, merge?, if_pos (isSlot_slotJson hslots),
    ← success?_mergeSlots hdistinct hmeets, Option.map_map, Option.map_map]
  exact congrArg (Option.map · _) (funext hencode)

/-! ## Fields -/

theorem meetsAsValue_value {value json : Json} (hshape : value.isOpaque = true)
    (hvalue : value.isDistinct = true) (hjson : json.isDistinct = true) :
    MeetsAsValue (.value value) json := by
  have hother : some (encodeField Entries.ofPairs (Field.ofJson json)) = some json.typeFirst :=
    congrArg some (encodeField_ofJson hjson)
  cases value with
  | object old =>
      cases json with
      | object new =>
          have hold : ¬ (typeName? old).isSome = true := by simpa [isOpaque] using hshape
          rw [MeetsAsValue, mergeField, encodeField, merge?, if_neg hold, ← mergeJson_eq_overlay _ hjson _ hvalue]
          rfl
      | _ => exact hother
  | array old =>
      cases json with
      | array new =>
          have hold : ¬ old.all isSlot = true := by simpa [isOpaque] using hshape
          rw [MeetsAsValue, encodeField, merge?, if_neg hold]
          exact hother
      | _ => exact hother
  | _ => cases json <;> exact hother

/-- Merging the value agrees with merging it into the values of canonical fields. -/
def MergesAsValue (json : Json) : Prop :=
  ∀ field : Field Node, field.isCanonical = true → field.document.isDistinct = true → MeetsAsValue field json

theorem mergesAsValue_of_parts {json : Json} (hjson : json.isDistinct = true)
    (hmembers : ∀ members, json = .object members →
      (members.map Prod.fst).Nodup ∧ ∀ entry ∈ members, MergesAsValue entry.2)
    (hitems : ∀ items, json = .array items → ∀ item ∈ items, MergesAsValue item) :
    MergesAsValue json := by
  intro field hcanonical hdistinct
  -- Where neither nodes nor lists meet, the new value is read on the one side and put in order on the other.
  have hother : some (encodeField Entries.ofPairs (Field.ofJson json)) = some json.typeFirst :=
    congrArg some (encodeField_ofJson hjson)
  cases field with
  | child node =>
      cases json with
      | object members =>
          obtain ⟨hnames, hparts⟩ := hmembers members rfl
          rw [isDistinct_object_iff] at hjson
          obtain ⟨hnode, hfields⟩ := isDistinct_document_iff.mp hdistinct
          refine meetsAsValue_child hnode hnames hjson.2 fun entry hmem field hget => ?_
          have hfield := Entries.mem_of_get?_eq_some hget
          exact hparts entry hmem field (all_hidesNoNode_iff.mp hcanonical _ hfield) (hfields _ hfield)
      | _ =>
          obtain ⟨kind, fields⟩ := node
          exact hother
  | list slots =>
      cases json with
      | array items =>
          rw [isDistinct_array_iff] at hjson
          have hslots : ∀ node, some node ∈ slots → node.document.isDistinct = true :=
            fun _ => isDistinct_of_mem_slots hdistinct
          refine meetsAsValue_list hslots hjson fun item hitem node hnode => ?_
          exact hitems items rfl item hitem _ (allInSlots_iff.mp hcanonical node hnode) (hslots node hnode)
      | _ => exact hother
  | value value =>
      rw [Field.isCanonical, Bool.and_eq_true] at hcanonical
      exact meetsAsValue_value hcanonical.1 hdistinct hjson

theorem mergesAsValue : (json : Json) → json.isDistinct = true → MergesAsValue json :=
  distinct_induction fun _ => mergesAsValue_of_parts

/-! ## What is not reached -/

/-- The patch does not reach the field with the name of the node at the end of the path: the path leads past
every member of the patch, or behind the last item of one, or no member has the name where it ends. -/
inductive Spares : List (String × Json) → Path → String → Prop where
  | here {members : List (String × Json)} {name : String} (absent : name ∉ members.map Prod.fst) :
      Spares members [] name
  | aside {members : List (String × Json)} {step : Step} {path : Path} {name : String}
      (absent : step.field ∉ members.map Prod.fst) : Spares members (step :: path) name
  | child {members inner : List (String × Json)} {field : String} {path : Path} {name : String}
      (mem : (field, .object inner) ∈ members) (below : Spares inner path name) :
      Spares members (⟨field, none⟩ :: path) name
  | slot {members inner : List (String × Json)} {field : String} {items : List Json} {i : Nat}
      {path : Path} {name : String} (mem : (field, .array items) ∈ members)
      (item : items[i]? = some (.object inner)) (below : Spares inner path name) :
      Spares members (⟨field, some i⟩ :: path) name
  | behind {members : List (String × Json)} {field : String} {items : List Json} {i : Nat}
      {path : Path} {name : String} (mem : (field, .array items) ∈ members) (behind : items.length ≤ i) :
      Spares members (⟨field, some i⟩ :: path) name

theorem Merges.string_of_type {deep : Bool} (h : Merges deep n members m) {json : Json}
    (hmem : ("type", json) ∈ members) : ∃ kind, json = .string kind := by
  induction h with
  | nil n => cases hmem
  | kind _ ih =>
      rcases List.mem_cons.mp hmem with heq | hmem
      · cases heq
        exact ⟨_, rfl⟩
      · exact ih hmem
  | member hname _ _ ih =>
      rcases List.mem_cons.mp hmem with heq | hmem
      · cases heq
        exact absurd rfl hname
      · exact ih hmem

/-- What a member makes of a field that is there, if the member is no `type`. -/
theorem Merges.mergeField_of_mem (h : Merges true n members m) (hnames : (members.map Prod.fst).Nodup)
    {name : String} {json : Json} (hmem : (name, json) ∈ members) (hjson : ∀ kind, json ≠ .string kind)
    {field : Field Node} (hget : n.get? name = some field) :
    ∃ field', mergeField field json = ⟨field', none⟩ ∧ m.get? name = some field' := by
  have hname : name ≠ "type" := by
    rintro rfl
    obtain ⟨kind, hkind⟩ := h.string_of_type hmem
    exact hjson kind hkind
  have hmade := h.get?_of_mem hnames hmem hname
  rwa [hget] at hmade

theorem Merges.child_of_mem (h : Merges true n members m) (hnames : (members.map Prod.fst).Nodup)
    {name : String} {inner : List (String × Json)} (hmem : (name, .object inner) ∈ members) {node : Node}
    (hget : n.get? name = some (.child node)) :
    ∃ node', Merges true node inner node' ∧ m.get? name = some (.child node') := by
  obtain ⟨field', hmade, hget'⟩ := h.mergeField_of_mem hnames hmem (by simp) hget
  rw [mergeField] at hmade
  obtain ⟨node', hmerge, rfl⟩ := map_eq_none hmade
  exact ⟨node', merges_of_mergeNode hmerge, hget'⟩

theorem Merges.list_of_mem (h : Merges true n members m) (hnames : (members.map Prod.fst).Nodup)
    {name : String} {items : List Json} (hmem : (name, .array items) ∈ members)
    {slots : List (Option Node)} (hget : n.get? name = some (.list slots)) :
    ∃ slots', MergesSlots slots items slots' ∧ m.get? name = some (.list slots') := by
  obtain ⟨field', hmade, hget'⟩ := h.mergeField_of_mem hnames hmem (by simp) hget
  rw [mergeField] at hmade
  obtain ⟨slots', hmerge, rfl⟩ := map_eq_none hmade
  exact ⟨slots', mergesSlots_of_mergeSlots hmerge, hget'⟩

theorem MergesSlots.getElem?_object {slots slots' : List (Option Node)} {items : List Json}
    (h : MergesSlots slots items slots') {i : Nat} {node : Node} (hslot : slots[i]? = some (some node))
    (hitem : items[i]? = some (.object members)) :
    ∃ node', mergeNode true node members = ⟨node', none⟩ ∧ slots'[i]? = some (some node') := by
  induction h generalizing i with
  | nil slots => cases hitem
  | merge hmade _ ih =>
      cases i with
      | zero =>
          cases hslot
          cases hitem
          exact ⟨_, hmade, rfl⟩
      | succ i => exact ih hslot hitem
  | read hnothing _ _ ih =>
      cases i with
      | zero =>
          cases hitem
          exact absurd rfl (hnothing _ _ (by rw [List.head?_eq_getElem?, hslot]))
      | succ i => exact ih (by rw [List.getElem?_tail, hslot]) hitem

theorem MergesSlots.getElem?_of_length_le {slots slots' : List (Option Node)} {items : List Json}
    (h : MergesSlots slots items slots') {i : Nat} (hi : items.length ≤ i) : slots'[i]? = slots[i]? := by
  induction h generalizing i with
  | nil slots => rfl
  | merge _ _ ih =>
      cases i with
      | zero => cases hi
      | succ i => exact ih (Nat.le_of_succ_le_succ hi)
  | read _ _ _ ih =>
      cases i with
      | zero => cases hi
      | succ i => rw [List.getElem?_cons_succ, ih (Nat.le_of_succ_le_succ hi), List.getElem?_tail]

theorem step?_congr {step : Step} (h : m.get? step.field = n.get? step.field) :
    m.step? step = n.step? step := by
  rw [step?, step?, child?, child?, slots?, slots?, h]

/-- A patch leaves the fields that it does not reach as they were. -/
theorem Spares.get?_eq {path : Path} {name : String} (hspares : Spares members path name)
    (h : Merges true n members m) (hmembers : (Json.object members).isDistinct = true) {x : Node}
    (hat : n.at? path = some x) : ∃ y, m.at? path = some y ∧ y.get? name = x.get? name := by
  induction hspares generalizing n m with
  | here habsent =>
      cases hat
      exact ⟨m, rfl, h.get?_of_not_mem habsent⟩
  | aside habsent =>
      rw [at?_cons, ← step?_congr (h.get?_of_not_mem habsent)] at hat
      exact ⟨x, hat, rfl⟩
  | child hmem _ ih =>
      rw [isDistinct_object_iff] at hmembers
      rw [at?_cons, Option.bind_eq_some_iff] at hat
      obtain ⟨node, hnode, hat⟩ := hat
      obtain ⟨node', hmerges, hget⟩ := h.child_of_mem hmembers.1 hmem (child?_eq_some_iff.mp hnode)
      obtain ⟨y, hy, hname⟩ := ih hmerges (hmembers.2 _ hmem) hat
      exact ⟨y, by rwa [at?_cons, step?, child?_eq_some_iff.mpr hget], hname⟩
  | slot hmem hitem _ ih =>
      rw [isDistinct_object_iff] at hmembers
      rw [at?_cons, Option.bind_eq_some_iff] at hat
      obtain ⟨node, hnode, hat⟩ := hat
      obtain ⟨slots, hslots, hslot⟩ := step?_slot_eq_some_iff.mp hnode
      obtain ⟨slots', hmerges, hget⟩ := h.list_of_mem hmembers.1 hmem hslots
      obtain ⟨node', hnode', hslot'⟩ := hmerges.getElem?_object hslot hitem
      have hitems := isDistinct_array_iff.mp (hmembers.2 _ hmem)
      obtain ⟨y, hy, hname⟩ := ih (merges_of_mergeNode hnode') (hitems _ (List.mem_of_getElem? hitem)) hat
      exact ⟨y, by rwa [at?_cons, step?_slot_eq_some_iff.mpr ⟨slots', hget, hslot'⟩], hname⟩
  | behind hmem hbehind =>
      rw [isDistinct_object_iff] at hmembers
      rw [at?_cons, Option.bind_eq_some_iff] at hat
      obtain ⟨node, hnode, hat⟩ := hat
      obtain ⟨slots, hslots, hslot⟩ := step?_slot_eq_some_iff.mp hnode
      obtain ⟨slots', hmerges, hget⟩ := h.list_of_mem hmembers.1 hmem hslots
      have hslot' := hmerges.getElem?_of_length_le hbehind
      rw [hslot] at hslot'
      exact ⟨x, by rwa [at?_cons, step?_slot_eq_some_iff.mpr ⟨slots', hget, hslot'⟩], rfl⟩

end Patch

/-! ## The verb -/

section Verb

open Json Node Patch

variable {σ η : Type} {members : List (String × Json)} {c c' : Cursor η} {s s' : σ}

theorem Action.patch_object_eq_ok_iff {deep : Bool} :
    (Action.patch deep (.object members) : Action σ η Unit) (c, s) = .ok () (c', s') ↔
      ∃ node, (mergeNode deep c.node members).success? = some node ∧ c' = { c with node } ∧ s' = s := by
  rw [Action.patch_eq, Patch.apply]
  rcases mergeNode deep c.node members with ⟨node, _ | error⟩
  · constructor
    · rintro ⟨⟩
      exact ⟨node, rfl, rfl, rfl⟩
    · rintro ⟨_, ⟨⟩, rfl, rfl⟩
      rfl
  · simp [Attempt.success?]

/-- **A deep patch is a merge of JSON values.** The patch of a canonical node, in whose document no name
is repeated, succeeds exactly if the merge of the values does. The value of the node that it makes is
the merged one, and fields that it does not reach, at whatever depth, are as they were. -/
theorem patch_deep_eq_merge (hcanonical : c.node.all hidesNoNode = true)
    (hnames : c.node.document.isDistinct = true) (hpatch : (Json.object members).isDistinct = true) :
    (∀ json, (∃ c', (Action.patch true (.object members) : Action σ η Unit) (c, s) = .ok () (c', s) ∧
        c'.node.toJson = json) ↔ c.node.toJson.merge? (.object members) = some json) ∧
      ∀ c', (Action.patch true (.object members) : Action σ η Unit) (c, s) = .ok () (c', s) →
        ∀ path name x, Spares members path name → c.node.at? path = some x →
          ∃ y, c'.node.at? path = some y ∧ y.get? name = x.get? name := by
  have hmade := meetsAsValue_child_iff.mp (mergesAsValue _ hpatch (.child c.node) hcanonical hnames)
  constructor
  · intro json
    rw [← hmade, Option.map_eq_some_iff]
    constructor
    · rintro ⟨c', hc', hjson⟩
      obtain ⟨node, hnode, rfl, -⟩ := Action.patch_object_eq_ok_iff.mp hc'
      exact ⟨node, hnode, hjson⟩
    · rintro ⟨node, hnode, hjson⟩
      exact ⟨{ c with node }, Action.patch_object_eq_ok_iff.mpr ⟨node, hnode, rfl, rfl⟩, hjson⟩
  · intro c' hc' path name x hspares hat
    obtain ⟨node, hnode, rfl, -⟩ := Action.patch_object_eq_ok_iff.mp hc'
    exact hspares.get?_eq (merges_of_mergeNode (Attempt.success?_eq_some_iff.mp hnode)) hpatch hat

/-- `f(a,, b)` with a comment. -/
def sparseCall : Node :=
  ⟨.callExpression,
    [("callee", .child ⟨.identifier, [("name", .value (.string "f"))]⟩),
      ("arguments", .list [some ⟨.identifier, [("name", .value (.string "a"))]⟩, none,
        some ⟨.identifier, [("name", .value (.string "b"))]⟩]),
      ("note", .value (.object [("by", .object [("name", .string "x"), ("line", .int 1)])]))]⟩

/-- A patch that makes it `new f(c, d, b)` and adds to the comment. -/
def constructingPatch : List (String × Json) :=
  [("note", .object [("by", .object [("type", .string "Identifier"), ("name", .string "y")])]),
    ("arguments", .array [.object [("name", .string "c")],
      .object [("name", .string "d"), ("type", .string "Identifier")]]),
    ("sourceType", .string "module"), ("type", .string "NewExpression")]

/-- The kind changes, the first argument is renamed, the hole is filled, and the third argument is left alone. In
the comment `type` is a name like others. A number can fill no slot. -/
theorem patch_deep_eq_merge_sparseCall :
    ∃ c c' : Cursor Empty, c.node = sparseCall ∧
      (Action.patch true (.object constructingPatch) : Action Unit Empty Unit) (c, ()) = .ok () (c', ()) ∧
      c'.node.toJson = .object [("type", .string "NewExpression"),
        ("callee", .object [("type", .string "Identifier"), ("name", .string "f")]),
        ("arguments", .array [.object [("type", .string "Identifier"), ("name", .string "c")],
          .object [("type", .string "Identifier"), ("name", .string "d")],
          .object [("type", .string "Identifier"), ("name", .string "b")]]),
        ("note", .object [("by", .object [("name", .string "y"), ("line", .int 1),
          ("type", .string "Identifier")])]),
        ("sourceType", .string "module")] ∧
      (∃ b, c'.node.at? [⟨"arguments", some 2⟩] = some b ∧ b.get? "name" = some (.value (.string "b"))) ∧
      ¬ ∃ c', (Action.patch true (.object [("arguments", .array [.int 0])]) : Action Unit Empty Unit) (c, ())
        = .ok () (c', ()) := by
  let c : Cursor Empty := { root := sparseCall, path := [], node := sparseCall }
  have hcanonical : c.node.all hidesNoNode = true := by decide +kernel
  have hnames : c.node.document.isDistinct = true := by decide +kernel
  have hpatch : (Json.object constructingPatch).isDistinct = true := by decide +kernel
  have hnumber : (Json.object [("arguments", .array [.int 0])]).isDistinct = true := by decide +kernel
  obtain ⟨hvalue, hspared⟩ := patch_deep_eq_merge (s := ()) hcanonical hnames hpatch
  obtain ⟨c', hc', hjson⟩ := (hvalue _).mpr rfl
  refine ⟨c, c', rfl, hc', hjson, ?_, ?_⟩
  · have hbehind : Spares constructingPatch [⟨"arguments", some 2⟩] "name" :=
      .behind (List.mem_cons_of_mem _ List.mem_cons_self) (Nat.le_refl 2)
    exact hspared c' hc' _ _ _ hbehind rfl
  · rintro ⟨c', hc'⟩
    have hfails := (patch_deep_eq_merge (s := ()) hcanonical hnames hnumber).1 c'.node.toJson
    cases hfails.mp ⟨c', hc', rfl⟩

/-- The names have to be distinct: a field that was called `type` by hand hides the kind that a patch sets. And
what is overwritten is not the very value of the patch: an identifier whose `type` comes last there has it
first in the node. -/
theorem patch_deep_ne_merge :
    (∃ c c' : Cursor Empty, c.node.all hidesNoNode = true ∧
      (Action.patch true (.object [("type", .string "Y")]) : Action Unit Empty Unit) (c, ())
        = .ok () (c', ()) ∧
      c.node.toJson.merge? (.object [("type", .string "Y")]) = some (.object [("type", .string "Y")]) ∧
      c'.node.toJson = .object [("type", .string "X")]) ∧
    ∃ c c' : Cursor Empty, c.node.all hidesNoNode = true ∧
      c.node.toJson = .object [("type", .string "Program")] ∧
      (Action.patch true (.object [("x", .object [("name", .string "a"), ("type", .string "Identifier")])]) :
        Action Unit Empty Unit) (c, ()) = .ok () (c', ()) ∧
      c'.node.toJson = .object [("type", .string "Program"),
        ("x", .object [("type", .string "Identifier"), ("name", .string "a")])] := by
  constructor
  · let named : Node := ⟨.program, [("type", .value (.string "X"))]⟩
    exact ⟨{ root := named, path := [], node := named }, _, rfl, rfl, rfl, rfl⟩
  · let program : Node := ⟨.program, []⟩
    exact ⟨{ root := program, path := [], node := program }, _, rfl, rfl, rfl, rfl⟩

end Verb

end Minifier
