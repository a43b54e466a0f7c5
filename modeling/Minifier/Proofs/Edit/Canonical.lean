import Minifier.Edit.Cursor
import Minifier.Proofs.Tree.Conversion

/-!
# Patches and canonical trees

A tree is canonical if a reader would see every node of it: no opaque value has the shape of a node or of a
list of slots (`hidesNoNode`, at every depth). Most of what a patch writes is read by its shape, and so is
canonical. One kind of meeting is not: members that are merged into an opaque object leave an
opaque object, also when a string `type` is among them.

* `Merges` is a patch that succeeds, member by member; what it makes of a field is `merged`.
* `TypesOpaque` says where a deep patch gives an opaque object a `type`.
* A patch keeps a tree canonical unless it does that (`canonical_iff_of_patch`).
-/

namespace Minifier

open Json Node

/-- Neither the field itself nor a node in it hides a node. -/
def Field.isCanonical (field : Field Node) : Bool :=
  field.value?.all Json.isOpaque && allInField hidesNoNode field

theorem Node.all_hidesNoNode_iff {n : Node} :
    n.all hidesNoNode = true ↔ ∀ entry ∈ n.fields, entry.2.isCanonical = true := by
  obtain ⟨kind, fields⟩ := n
  rw [all, Bool.and_eq_true, allInFields_iff, hidesNoNode, List.all_eq_true]
  simp only [Field.isCanonical, Bool.and_eq_true]
  exact forall₂_and.symm

theorem Node.allInSlots_tail {p : Node → Bool} {slots : List (Option Node)}
    (h : allInSlots p slots = true) : allInSlots p slots.tail = true :=
  allInSlots_iff.mpr fun node hmem => allInSlots_iff.mp h node (List.mem_of_mem_tail hmem)

/-- What is read by its shape is canonical. -/
theorem isCanonical_ofJson (json : Json) : (Field.ofJson json).isCanonical = true := by
  cases hfield : Field.ofJson json with
  | child node => exact all_hidesNoNode_of_ofJson hfield
  | value value =>
      rw [Field.isCanonical, Field.value?, Option.all_some, isOpaque_of_ofJson hfield]
      rfl
  | list slots =>
      have hall := allInField_ofJson supplies_hidesNoNode json rfl
      rw [hfield] at hall
      exact hall

namespace Patch

variable {deep : Bool} {n m : Node} {members : List (String × Json)}

/-! ## A patch that succeeds -/

/-- What a member of a patch makes of the field that it names. -/
def merged (deep : Bool) (field? : Option (Field Node)) (json : Json) : Attempt (Field Node) :=
  match field?, deep with
  | some field, true => mergeField field json
  | _, _ => ⟨Field.ofJson json, none⟩

/-- Members that are merged into a node one after the other, all of them. -/
inductive Merges (deep : Bool) : Node → List (String × Json) → Node → Prop where
  | nil (n : Node) : Merges deep n [] n
  | kind {n m : Node} {name : String} {rest : List (String × Json)}
      (merges : Merges deep { n with kind := .ofName name } rest m) :
      Merges deep n (("type", .string name) :: rest) m
  | member {n m : Node} {name : String} {json : Json} {field : Field Node}
      {rest : List (String × Json)} (ne : name ≠ "type")
      (made : merged deep (n.get? name) json = ⟨field, none⟩)
      (merges : Merges deep (n.set name field) rest m) :
      Merges deep n ((name, json) :: rest) m

/-- One member after the other: what is made of a field depends on that field alone. -/
theorem mergeNode_cons (deep : Bool) (n : Node) (name : String) (json : Json)
    (rest : List (String × Json)) :
    mergeNode deep n ((name, json) :: rest) =
      if name = "type" then
        match json with
        | .string kind => mergeNode deep { n with kind := .ofName kind } rest
        | _ => ⟨n, some (.edit .patchTypeNotString)⟩
      else
        match merged deep (n.get? name) json with
        | ⟨field, none⟩ => mergeNode deep (n.set name field) rest
        | ⟨field, some error⟩ => ⟨n.set name field, some error⟩ := by
  rw [mergeNode.eq_def]
  dsimp only
  congr 1
  unfold merged
  cases n.get? name <;> cases deep <;> rfl

theorem merges_of_mergeNode (h : mergeNode deep n members = ⟨m, none⟩) : Merges deep n members m := by
  induction members generalizing n with
  | nil =>
      cases h
      exact .nil _
  | cons entry rest ih =>
      obtain ⟨name, json⟩ := entry
      rw [mergeNode_cons] at h
      split at h
      · rename_i hname
        subst hname
        split at h
        · exact .kind (ih h)
        · cases h
      · rename_i hname
        split at h
        · rename_i hmade
          exact .member hname hmade (ih h)
        · cases h

theorem mergeNode_of_merges (h : Merges deep n members m) : mergeNode deep n members = ⟨m, none⟩ := by
  induction h with
  | nil n => rfl
  | kind _ ih => rwa [mergeNode_cons, if_pos rfl]
  | member hname hmade _ ih => rwa [mergeNode_cons, if_neg hname, hmade]

theorem ne_of_not_mem_keys {name other : String} {json : Json} (h : other ∉ members.map Prod.fst)
    (hmem : (name, json) ∈ members) : name ≠ other := by
  rintro rfl
  exact h (List.mem_map.mpr ⟨_, hmem, rfl⟩)

namespace Merges

theorem get?_of_not_mem (h : Merges deep n members m) {name : String}
    (hname : name ∉ members.map Prod.fst) : m.get? name = n.get? name := by
  induction h with
  | nil n => rfl
  | kind _ ih => exact ih fun hmem => hname (List.mem_cons_of_mem _ hmem)
  | member _ _ _ ih =>
      rw [List.map_cons, List.mem_cons, not_or] at hname
      rw [ih hname.2, get?_set_of_ne hname.1]

/-- Every member made something of the field that it names. -/
theorem get?_of_mem (h : Merges deep n members m) (hnames : (members.map Prod.fst).Nodup)
    {name : String} {json : Json} (hmem : (name, json) ∈ members) (hname : name ≠ "type") :
    ∃ field, merged deep (n.get? name) json = ⟨field, none⟩ ∧ m.get? name = some field := by
  induction h with
  | nil n => cases hmem
  | kind _ ih =>
      rw [List.map_cons, List.nodup_cons] at hnames
      rcases List.mem_cons.mp hmem with heq | hmem
      · cases heq
        exact absurd rfl hname
      · exact ih hnames.2 hmem
  | @member _ _ other _ _ _ _ hfield hrest ih =>
      rw [List.map_cons, List.nodup_cons] at hnames
      rcases List.mem_cons.mp hmem with heq | hmem
      · cases heq
        exact ⟨_, hfield, by rw [hrest.get?_of_not_mem hnames.1, get?_set_self]⟩
      · have hne : name ≠ other := ne_of_not_mem_keys hnames.1 hmem
        obtain ⟨field, hmerged, hget⟩ := ih hnames.2 hmem
        rw [get?_set_of_ne hne] at hmerged
        exact ⟨field, hmerged, hget⟩

/-- Every field was there before or was made by a member. -/
theorem mem_fields (h : Merges deep n members m) (hnames : (members.map Prod.fst).Nodup)
    {entry : String × Field Node} (hentry : entry ∈ m.fields) :
    entry ∈ n.fields ∨ ∃ json, (entry.1, json) ∈ members ∧ entry.1 ≠ "type" ∧
      merged deep (n.get? entry.1) json = ⟨entry.2, none⟩ := by
  induction h with
  | nil n => exact .inl hentry
  | kind _ ih =>
      rw [List.map_cons, List.nodup_cons] at hnames
      rcases ih hnames.2 hentry with hold | ⟨json, hmem, hmade⟩
      · exact .inl hold
      · exact .inr ⟨json, List.mem_cons_of_mem _ hmem, hmade⟩
  | @member _ _ other _ _ _ hname hfield _ ih =>
      rw [List.map_cons, List.nodup_cons] at hnames
      rcases ih hnames.2 hentry with hold | ⟨json, hmem, hne, hmade⟩
      · rcases Entries.mem_set hold with rfl | hold
        · exact .inr ⟨_, List.mem_cons_self, hname, hfield⟩
        · exact .inl hold
      · have hother : entry.1 ≠ other := ne_of_not_mem_keys hnames.1 hmem
        rw [get?_set_of_ne hother] at hmade
        exact .inr ⟨json, List.mem_cons_of_mem _ hmem, hne, hmade⟩

/-- A patch adds no field called `type` and no field twice. -/
theorem nodup_names (h : Merges deep n members m) (hn : ("type" :: n.fields.map Prod.fst).Nodup) :
    ("type" :: m.fields.map Prod.fst).Nodup := by
  induction h with
  | nil n => exact hn
  | kind _ ih => exact ih hn
  | @member n _ name _ _ _ hname _ _ ih =>
      apply ih
      rw [List.nodup_cons] at hn ⊢
      refine ⟨?_, Entries.nodup_keys_set hn.2 _ _⟩
      rw [Node.set, Entries.keys_set]
      split
      · exact hn.1
      · simp [hn.1, Ne.symm hname]

/-- A patch adds no field called `type` and no field twice, and names kinds as they are named. -/
theorem isWellNamed (h : Merges deep n members m) (hn : n.isWellNamed = true) : m.isWellNamed = true := by
  rw [Node.isWellNamed, Bool.and_eq_true, decide_eq_true_eq] at hn ⊢
  refine ⟨?_, h.nodup_names hn.2⟩
  have hkind := hn.1
  clear hn
  induction h with
  | nil n => exact hkind
  | kind _ ih => exact ih (by simp [Kind.name_ofName])
  | member _ _ _ ih => exact ih hkind

end Merges

/-- Items that are merged into slots one after the other, all of them. -/
inductive MergesSlots : List (Option Node) → List Json → List (Option Node) → Prop where
  | nil (slots : List (Option Node)) : MergesSlots slots [] slots
  | merge {node node' : Node} {members : List (String × Json)} {slots slots' : List (Option Node)}
      {items : List Json} (made : mergeNode true node members = ⟨node', none⟩)
      (merges : MergesSlots slots items slots') :
      MergesSlots (some node :: slots) (.object members :: items) (some node' :: slots')
  | read {slot : Option Node} {slots slots' : List (Option Node)} {item : Json} {items : List Json}
      (nothing : ∀ node members, slots.head? = some (some node) → item ≠ .object members)
      (made : slotOfJson item = .ok slot) (merges : MergesSlots slots.tail items slots') :
      MergesSlots slots (item :: items) (slot :: slots')

theorem map_eq_none {α β : Type} {f : α → β} {attempt : Attempt α} {b : β}
    (h : attempt.map f = ⟨b, none⟩) : ∃ a, attempt = ⟨a, none⟩ ∧ f a = b := by
  obtain ⟨a, error⟩ := attempt
  cases h
  exact ⟨a, rfl, rfl⟩

theorem mergesSlots_of_mergeSlots {slots slots' : List (Option Node)} {items : List Json}
    (h : mergeSlots slots items = ⟨slots', none⟩) : MergesSlots slots items slots' := by
  induction items generalizing slots slots' with
  | nil =>
      rw [mergeSlots] at h
      cases h
      exact .nil _
  | cons item items ih =>
      unfold mergeSlots at h
      split at h
      · contradiction
      · rename_i heq
        cases heq
        split at h
        · rename_i hmade
          obtain ⟨rest, hrest, rfl⟩ := map_eq_none h
          exact .merge hmade (ih hrest)
        · cases h
      · rename_i hother heq
        cases heq
        split at h
        · rename_i hmade
          obtain ⟨rest, hrest, rfl⟩ := map_eq_none h
          refine .read ?_ hmade (ih hrest)
          rintro node members hhead rfl
          obtain ⟨rest, rfl⟩ := List.head?_eq_some_iff.mp hhead
          exact hother _ _ _ rfl rfl
        · cases h

theorem mergeSlots_of_mergesSlots {slots slots' : List (Option Node)} {items : List Json}
    (h : MergesSlots slots items slots') : mergeSlots slots items = ⟨slots', none⟩ := by
  induction h with
  | nil slots => rw [mergeSlots]
  | merge hmade _ ih =>
      rw [mergeSlots, hmade]
      dsimp only
      rw [ih]
      rfl
  | @read slot slots slots' item items hnothing hmade _ ih =>
      have hother : ∀ node slots₁ members, slots = some node :: slots₁ → item ≠ .object members := by
        rintro node slots₁ members rfl
        exact hnothing node members rfl
      rw [mergeSlots, hmade]
      · dsimp only
        rw [ih]
        rfl
      · exact fun node slots₁ members hslots => hother node slots₁ members hslots

/-! ## The ways to meet -/

mutual

/-- Merging the value into the field gives an opaque object a string `type`. -/
inductive TypesOpaque : Field Node → Json → Prop where
  | value {old new : List (String × Json)} (typed : (typeName? new).isSome = true) :
      TypesOpaque (.value (.object old)) (.object new)
  | child {node : Node} {members : List (String × Json)} (below : TypesOpaqueBelow node members) :
      TypesOpaque (.child node) (.object members)
  | slot {slots : List (Option Node)} {items : List Json} {i : Nat} {node : Node}
      {members : List (String × Json)} (slot : slots[i]? = some (some node))
      (item : items[i]? = some (.object members)) (below : TypesOpaqueBelow node members) :
      TypesOpaque (.list slots) (.array items)

/-- Merging the members into the fields of the node gives an opaque object a string `type`. -/
inductive TypesOpaqueBelow : Node → List (String × Json) → Prop where
  | field {n : Node} {members : List (String × Json)} {name : String} {json : Json}
      {field : Field Node} (ne : name ≠ "type") (mem : (name, json) ∈ members)
      (get : n.get? name = some field) (types : TypesOpaque field json) : TypesOpaqueBelow n members

end

/-- A value meets a field. Where there is nothing to merge, it is read by its shape. -/
inductive Meeting : Field Node → Json → Attempt (Field Node) → Prop where
  | child (node : Node) (members : List (String × Json)) :
      Meeting (.child node) (.object members) ((mergeNode true node members).map .child)
  | list (slots : List (Option Node)) (items : List Json) :
      Meeting (.list slots) (.array items) ((mergeSlots slots items).map .list)
  | untyped (old new : List (String × Json)) :
      Meeting (.value (.object old)) (.object new) ⟨.value (.object (mergeObject old new)), none⟩
  | other {field : Field Node} {json : Json} (nothing : ¬ TypesOpaque field json) :
      Meeting field json ⟨Field.ofJson json, none⟩

theorem meeting (field : Field Node) (json : Json) : Meeting field json (mergeField field json) := by
  unfold mergeField
  split
  · exact .child ..
  · exact .list ..
  · exact .untyped ..
  · rename_i hchild hlist hopaque
    refine .other fun h => ?_
    cases h with
    | value typed => exact hopaque _ _ rfl rfl
    | child below => exact hchild _ _ rfl rfl
    | slot slot item below => exact hlist _ _ rfl rfl

/-! ## Members inside an opaque object -/

/-- What an opaque object has under a name when members were merged into it. -/
theorem get?_mergeObject {new : List (String × Json)} (hnames : (new.map Prod.fst).Nodup)
    (old : List (String × Json)) (name : String) :
    Entries.get? (mergeObject old new) name =
      match Entries.get? new name, Entries.get? old name with
      | some json, some before => some (mergeJson before json)
      | some json, none => some json
      | none, before => before := by
  induction new generalizing old with
  | nil => simp [mergeObject]
  | cons entry rest ih =>
      obtain ⟨other, json⟩ := entry
      rw [List.map_cons, List.nodup_cons] at hnames
      have hrest : Entries.get? rest other = none := by
        rw [Option.eq_none_iff_forall_not_mem]
        intro json hjson
        exact ne_of_not_mem_keys hnames.1 (Entries.mem_of_get?_eq_some hjson) rfl
      rw [mergeObject, Entries.get?]
      split <;> rename_i hbefore <;> rw [ih hnames.2] <;> by_cases hname : other = name
      · subst hname
        simp [hrest, hbefore]
      · rw [if_neg hname, Entries.get?_set_of_ne (Ne.symm hname)]
      · subst hname
        simp [hrest, hbefore]
      · rw [if_neg hname, Entries.get?_set_of_ne (Ne.symm hname)]

theorem string?_mergeJson (before json : Json) : (mergeJson before json).string? = json.string? := by
  unfold mergeJson
  split <;> rfl

/-- An opaque object has a string `type` after a merge iff it was given one. -/
theorem typeName?_mergeObject {old new : List (String × Json)} (hnames : (new.map Prod.fst).Nodup)
    (hold : typeName? old = none) : typeName? (mergeObject old new) = typeName? new := by
  rw [typeName?] at hold ⊢
  rw [get?_mergeObject hnames, typeName?]
  cases Entries.get? new "type" with
  | none => exact hold
  | some json =>
      cases Entries.get? old "type" with
      | none => rfl
      | some before => exact string?_mergeJson before json

/-! ## What stays canonical -/

/-- What merging the value does to canonical fields. -/
def KeepsCanonical (json : Json) : Prop :=
  ∀ field field' : Field Node, field.isCanonical = true → mergeField field json = ⟨field', none⟩ →
    (field'.isCanonical = true ↔ ¬ TypesOpaque field json)

/-- A patch of a node, by what its members do. -/
theorem Merges.canonical_iff (h : Merges deep n members m) (hnames : (members.map Prod.fst).Nodup)
    (hkeeps : ∀ entry ∈ members, KeepsCanonical entry.2) (hn : n.all hidesNoNode = true) :
    m.all hidesNoNode = true ↔ ¬ (deep = true ∧ TypesOpaqueBelow n members) := by
  rw [all_hidesNoNode_iff] at hn ⊢
  constructor
  · rintro hm ⟨rfl, htypes⟩
    obtain ⟨hname, hmem, hget, htypes⟩ := htypes
    obtain ⟨field, hmade, hafter⟩ := h.get?_of_mem hnames hmem hname
    rw [hget] at hmade
    have hbefore := hn _ (Entries.mem_of_get?_eq_some hget)
    exact (hkeeps _ hmem _ _ hbefore hmade).mp (hm _ (Entries.mem_of_get?_eq_some hafter)) htypes
  · intro hnone entry hentry
    rcases h.mem_fields hnames hentry with hold | ⟨json, hmem, hname, hmade⟩
    · exact hn entry hold
    · unfold merged at hmade
      split at hmade
      · rename_i field hget
        have hbefore := hn _ (Entries.mem_of_get?_eq_some hget)
        refine (hkeeps _ hmem _ _ hbefore hmade).mpr fun htypes => ?_
        exact hnone ⟨rfl, .field hname hmem hget htypes⟩
      · rw [Attempt.mk.injEq] at hmade
        rw [← hmade.1]
        exact isCanonical_ofJson json

theorem typesOpaque_cons_iff {slots : List (Option Node)} {item : Json} {items : List Json} :
    TypesOpaque (.list slots) (.array (item :: items)) ↔
      (∃ node, slots.head? = some (some node) ∧ TypesOpaque (.child node) item) ∨
        TypesOpaque (.list slots.tail) (.array items) := by
  constructor
  · rintro (_ | _ | @⟨_, _, i, node, members, hslot, hitem, hbelow⟩)
    cases i with
    | zero =>
        rw [List.getElem?_cons_zero] at hitem
        cases hitem
        exact .inl ⟨node, by rw [List.head?_eq_getElem?, hslot], .child hbelow⟩
    | succ i => exact .inr (.slot (by rw [List.getElem?_tail, hslot]) hitem hbelow)
  · rintro (⟨node, hhead, htypes⟩ | htypes)
    · cases htypes with
      | child hbelow => exact .slot (i := 0) (by rw [← List.head?_eq_getElem?, hhead]) rfl hbelow
    · cases htypes with
      | @slot _ _ i _ _ hslot hitem hbelow =>
          rw [List.getElem?_tail] at hslot
          exact .slot (i := i + 1) hslot hitem hbelow

theorem ofJson_of_slotOfJson {item : Json} {node : Node} (h : slotOfJson item = .ok (some node)) :
    Field.ofJson item = .child node := by
  unfold slotOfJson at h
  split at h
  · cases h
  · rw [← ofJson_eq_ok_iff]
    cases hread : Node.ofJson item with
    | error error => simp [hread, Except.map] at h
    | ok read => simp_all [Except.map]

/-- Items that are merged into slots, by what each item does. -/
theorem MergesSlots.canonical_iff {slots slots' : List (Option Node)} {items : List Json}
    (h : MergesSlots slots items slots') (hkeeps : ∀ item ∈ items, KeepsCanonical item)
    (hslots : allInSlots hidesNoNode slots = true) :
    allInSlots hidesNoNode slots' = true ↔ ¬ TypesOpaque (.list slots) (.array items) := by
  induction h with
  | nil slots =>
      refine iff_of_true hslots fun htypes => ?_
      cases htypes with
      | slot _ item _ => simp at item
  | @merge node node' members _ _ _ hmade _ ih =>
      rw [List.forall_mem_cons] at hkeeps
      rw [allInSlots, Bool.and_eq_true] at hslots
      have hfield : mergeField (.child node) (.object members) = ⟨.child node', none⟩ := by
        rw [mergeField, hmade]
        rfl
      have hnode := hkeeps.1 (.child node) (.child node') hslots.1 hfield
      rw [allInSlots, Bool.and_eq_true, ih hkeeps.2 hslots.2, typesOpaque_cons_iff, not_or]
      refine and_congr_left' (hnode.trans ?_)
      simp
  | @read slot slots _ item _ hnothing hmade _ ih =>
      rw [List.forall_mem_cons] at hkeeps
      have hhead : ¬ ∃ node, slots.head? = some (some node) ∧ TypesOpaque (.child node) item := by
        rintro ⟨node, hhead, htypes⟩
        cases htypes with
        | child hbelow => exact hnothing _ _ hhead rfl
      rw [typesOpaque_cons_iff, or_iff_right hhead, ← ih hkeeps.2 (allInSlots_tail hslots)]
      cases slot with
      | none => rfl
      | some node =>
          rw [allInSlots, all_hidesNoNode_of_ofJson (ofJson_of_slotOfJson hmade), Bool.true_and]

/-- A value that meets a field, by what its parts do. -/
theorem keepsCanonical_of_parts {json : Json}
    (hmembers : ∀ members, json = .object members →
      (members.map Prod.fst).Nodup ∧ ∀ entry ∈ members, KeepsCanonical entry.2)
    (hitems : ∀ items, json = .array items → ∀ item ∈ items, KeepsCanonical item) :
    KeepsCanonical json := by
  intro field field' hfield h
  have hmeeting := meeting field json
  generalize mergeField field json = result at hmeeting h
  cases hmeeting with
  | child node members =>
      obtain ⟨hnames, hkeeps⟩ := hmembers members rfl
      obtain ⟨node', hmerge, rfl⟩ := map_eq_none h
      have hiff := (merges_of_mergeNode hmerge).canonical_iff hnames hkeeps hfield
      refine Iff.trans hiff (not_congr ⟨fun hbelow => .child hbelow.2, fun htypes => ?_⟩)
      cases htypes with
      | child hbelow => exact ⟨rfl, hbelow⟩
  | list slots items =>
      obtain ⟨slots', hmerge, rfl⟩ := map_eq_none h
      exact (mergesSlots_of_mergeSlots hmerge).canonical_iff (hitems items rfl) hfield
  | untyped old new =>
      rw [Attempt.mk.injEq] at h
      obtain ⟨rfl, _⟩ := h
      have hold : typeName? old = none := by
        simpa [Field.isCanonical, Field.value?, isOpaque, allInField] using hfield
      have htyped : TypesOpaque (.value (.object old)) (.object new) ↔ (typeName? new).isSome = true := by
        refine ⟨fun htypes => ?_, .value⟩
        cases htypes with
        | value typed => exact typed
      rw [htyped, ← typeName?_mergeObject (hmembers new rfl).1 hold]
      simp [Field.isCanonical, Field.value?, isOpaque, allInField]
  | other hnothing =>
      rw [Attempt.mk.injEq] at h
      obtain ⟨rfl, _⟩ := h
      exact iff_of_true (isCanonical_ofJson json) hnothing

/-- Induction on a value whose names are distinct. -/
theorem distinct_induction {motive : Json → Prop}
    (parts : ∀ json : Json, json.isDistinct = true →
      (∀ members, json = .object members →
        (members.map Prod.fst).Nodup ∧ ∀ entry ∈ members, motive entry.2) →
      (∀ items, json = .array items → ∀ item ∈ items, motive item) → motive json)
    (json : Json) (hjson : json.isDistinct = true) : motive json := by
  induction json using Json.induction with
  | object members ih =>
      apply parts _ hjson
      · rintro _ ⟨⟩
        rw [isDistinct_object_iff] at hjson
        exact ⟨hjson.1, fun entry hmem => ih entry hmem (hjson.2 entry hmem)⟩
      · nofun
  | array items ih =>
      apply parts _ hjson
      · nofun
      · rintro _ ⟨⟩
        rw [isDistinct_array_iff] at hjson
        exact fun item hmem => ih item hmem (hjson item hmem)
  | scalar json hobject harray =>
      exact parts json hjson (fun members h => absurd h (hobject members))
        fun items h => absurd h (harray items)

theorem keepsCanonical : (json : Json) → json.isDistinct = true → KeepsCanonical json :=
  distinct_induction fun _ _ => keepsCanonical_of_parts

/-! ## What stays well named -/

/-- Merging the value keeps fields well named. -/
def KeepsNames (json : Json) : Prop :=
  ∀ field field' : Field Node, allInField isWellNamed field = true →
    mergeField field json = ⟨field', none⟩ → allInField isWellNamed field' = true

theorem Merges.all_isWellNamed (h : Merges deep n members m) (hnames : (members.map Prod.fst).Nodup)
    (hdistinct : ∀ entry ∈ members, entry.2.isDistinct = true)
    (hkeeps : ∀ entry ∈ members, KeepsNames entry.2) (hn : n.all Node.isWellNamed = true) :
    m.all Node.isWellNamed = true := by
  have hsplit : ∀ n : Node, n.all Node.isWellNamed = true ↔
      n.isWellNamed = true ∧ ∀ entry ∈ n.fields, allInField Node.isWellNamed entry.2 = true := by
    rintro ⟨kind, fields⟩
    rw [all, Bool.and_eq_true, allInFields_iff]
  rw [hsplit] at hn ⊢
  refine ⟨h.isWellNamed hn.1, fun entry hentry => ?_⟩
  rcases h.mem_fields hnames hentry with hold | ⟨json, hmem, hname, hmade⟩
  · exact hn.2 entry hold
  · unfold merged at hmade
    split at hmade
    · rename_i field hget
      exact hkeeps _ hmem _ _ (hn.2 _ (Entries.mem_of_get?_eq_some hget)) hmade
    · rw [Attempt.mk.injEq] at hmade
      rw [← hmade.1]
      exact allInField_ofJson supplies_isWellNamed json (hdistinct _ hmem)

theorem MergesSlots.all_isWellNamed {slots slots' : List (Option Node)} {items : List Json}
    (h : MergesSlots slots items slots') (hdistinct : ∀ item ∈ items, item.isDistinct = true)
    (hkeeps : ∀ item ∈ items, KeepsNames item) (hslots : allInSlots Node.isWellNamed slots = true) :
    allInSlots Node.isWellNamed slots' = true := by
  induction h with
  | nil slots => exact hslots
  | @merge node node' members _ _ _ hmade _ ih =>
      rw [List.forall_mem_cons] at hkeeps hdistinct
      rw [allInSlots, Bool.and_eq_true] at hslots ⊢
      have hfield : mergeField (.child node) (.object members) = ⟨.child node', none⟩ := by
        rw [mergeField, hmade]
        rfl
      exact ⟨hkeeps.1 (.child node) (.child node') hslots.1 hfield, ih hdistinct.2 hkeeps.2 hslots.2⟩
  | @read slot slots _ item _ _ hmade _ ih =>
      rw [List.forall_mem_cons] at hkeeps hdistinct
      have hrest := ih hdistinct.2 hkeeps.2 (allInSlots_tail hslots)
      cases slot with
      | none => exact hrest
      | some node =>
          have hnode := allInField_ofJson supplies_isWellNamed item hdistinct.1
          rw [ofJson_of_slotOfJson hmade, allInField] at hnode
          rw [allInSlots, hnode, hrest]
          rfl

theorem keepsNames_of_parts {json : Json} (hjson : json.isDistinct = true)
    (hmembers : ∀ members, json = .object members →
      (members.map Prod.fst).Nodup ∧ ∀ entry ∈ members, KeepsNames entry.2)
    (hitems : ∀ items, json = .array items → ∀ item ∈ items, KeepsNames item) : KeepsNames json := by
  intro field field' hfield h
  have hmeeting := meeting field json
  generalize mergeField field json = result at hmeeting h
  cases hmeeting with
  | child node members =>
      obtain ⟨hnames, hkeeps⟩ := hmembers members rfl
      obtain ⟨node', hmerge, rfl⟩ := map_eq_none h
      rw [isDistinct_object_iff] at hjson
      exact (merges_of_mergeNode hmerge).all_isWellNamed hnames hjson.2 hkeeps hfield
  | list slots items =>
      obtain ⟨slots', hmerge, rfl⟩ := map_eq_none h
      rw [isDistinct_array_iff] at hjson
      exact (mergesSlots_of_mergeSlots hmerge).all_isWellNamed hjson (hitems items rfl) hfield
  | untyped old new =>
      rw [Attempt.mk.injEq] at h
      rw [← h.1]
      rfl
  | other _ =>
      rw [Attempt.mk.injEq] at h
      rw [← h.1]
      exact allInField_ofJson supplies_isWellNamed json hjson

theorem keepsNames : (json : Json) → json.isDistinct = true → KeepsNames json :=
  distinct_induction fun _ => keepsNames_of_parts

end Patch

/-! ## The verb -/

section Verb

open Patch

variable {σ η : Type} {deep : Bool} {patch : Json} {c c' : Cursor η} {s s' : σ}

theorem Action.patch_eq :
    (Action.patch deep patch : Action σ η Unit) (c, s) =
      match Patch.apply deep c.node patch with
      | ⟨node, none⟩ => .ok () ({ c with node }, s)
      | ⟨node, some error⟩ => .error error ({ c with node }, s) := by
  have hread : (Action.node : Action σ η Node) (c, s) = .ok c.node (c, s) := rfl
  unfold Action.patch
  show EStateM.bind Action.node _ _ = _
  simp only [EStateM.bind, hread]
  obtain ⟨node, error⟩ := Patch.apply deep c.node patch
  cases error <;> rfl

/-- A patch that succeeds is an object, all of whose members were merged into the node. -/
theorem Action.merges_of_patch (h : Action.patch deep patch (c, s) = .ok () (c', s')) :
    ∃ members, patch = .object members ∧ Merges deep c.node members c'.node := by
  rw [Action.patch_eq] at h
  split at h
  · rename_i node hmade
    cases h
    unfold Patch.apply at hmade
    split at hmade
    · exact ⟨_, rfl, merges_of_mergeNode hmade⟩
    · cases hmade
  · cases h

/-- **A patch keeps a tree canonical unless it gives an opaque object a `type`.** Only a deep one can. Then
the tree, though its names stay in order, is not what a reader makes of its document. -/
theorem canonical_iff_of_patch (hnode : c.node.all hidesNoNode = true) (hpatch : patch.isDistinct = true)
    (h : Action.patch deep patch (c, s) = .ok () (c', s')) :
    (c'.node.all hidesNoNode = true ↔ ¬ (deep = true ∧ TypesOpaque (.child c.node) patch)) ∧
      (c.node.all isWellNamed = true →
        c'.node.all isWellNamed = true ∧
          (Node.ofJson c'.node.toJson = .ok c'.node ↔
            ¬ (deep = true ∧ TypesOpaque (.child c.node) patch))) := by
  obtain ⟨members, rfl, hmerges⟩ := Action.merges_of_patch h
  rw [isDistinct, Bool.and_eq_true, decide_eq_true_eq, membersDistinct_iff] at hpatch
  have htypes : TypesOpaque (.child c.node) (.object members) ↔ TypesOpaqueBelow c.node members := by
    refine ⟨fun htypes => ?_, .child⟩
    cases htypes with
    | child hbelow => exact hbelow
  have hcanonical : c'.node.all hidesNoNode = true ↔ _ := hmerges.canonical_iff hpatch.1
    (fun entry hmem => keepsCanonical entry.2 (hpatch.2 entry hmem)) hnode
  rw [htypes]
  refine ⟨hcanonical, fun hnamed => ?_⟩
  have hnamed := hmerges.all_isWellNamed hpatch.1 hpatch.2
    (fun entry hmem => keepsNames entry.2 (hpatch.2 entry hmem)) hnamed
  refine ⟨hnamed, ?_⟩
  rw [← hcanonical, toJson_eq_document _ hnamed, ofJson_eq_ok_iff]
  exact ⟨all_hidesNoNode_of_ofJson, fun hhides => ofJson_document _ hhides hnamed⟩

/-- A statement whose expression is an opaque object. -/
def hidingStatement : Node :=
  ⟨.expressionStatement, [("expression", .value (.object [("start", .number (.int 1))]))]⟩

/-- A patch that names an identifier as the expression. -/
def namingPatch : Json :=
  .object [("expression", .object [("type", .string "Identifier"), ("name", .string "x")])]

/-- Merged deeply, the identifier stays out of sight. Merged shallowly, it becomes a child. -/
theorem canonical_iff_of_patch_naming :
    ∃ c deeply shallowly : Cursor Empty, c.node = hidingStatement ∧
      (Action.patch true namingPatch : Action Unit Empty Unit) (c, ()) = .ok () (deeply, ()) ∧
      deeply.node.all hidesNoNode ≠ true ∧ Node.ofJson deeply.node.toJson ≠ .ok deeply.node ∧
      (Action.patch false namingPatch : Action Unit Empty Unit) (c, ()) = .ok () (shallowly, ()) ∧
      shallowly.node.all hidesNoNode = true ∧
      Node.ofJson shallowly.node.toJson = .ok shallowly.node := by
  let c : Cursor Empty := { root := hidingStatement, path := [], node := hidingStatement }
  have htypes : TypesOpaque (.child c.node) namingPatch :=
    .child (.field (by decide) List.mem_cons_self rfl (.value rfl))
  obtain ⟨deeply, hdeeply⟩ :
      ∃ c', (Action.patch true namingPatch : Action Unit Empty Unit) (c, ()) = .ok () (c', ()) :=
    ⟨_, rfl⟩
  obtain ⟨shallowly, hshallowly⟩ :
      ∃ c', (Action.patch false namingPatch : Action Unit Empty Unit) (c, ()) = .ok () (c', ()) :=
    ⟨_, rfl⟩
  have hnamed : c.node.all isWellNamed = true := by decide +kernel
  obtain ⟨hdeep, hdeepRead⟩ := canonical_iff_of_patch rfl rfl hdeeply
  obtain ⟨hshallow, hshallowRead⟩ := canonical_iff_of_patch rfl rfl hshallowly
  refine ⟨c, deeply, shallowly, rfl, hdeeply, ?_, ?_, hshallowly, ?_, ?_⟩
  · exact fun h => hdeep.mp h ⟨rfl, htypes⟩
  · exact fun h => (hdeepRead hnamed).2.mp h ⟨rfl, htypes⟩
  · exact hshallow.mpr (by simp)
  · exact (hshallowRead hnamed).2.mpr (by simp)

end Verb

end Minifier
