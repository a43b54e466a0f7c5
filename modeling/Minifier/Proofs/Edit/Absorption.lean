import Minifier.Proofs.Edit.Canonical

/-!
# Patches applied twice

A field *absorbs* a value if merging the value into it succeeds and changes nothing. What was just made
of a value absorbs it: on the second merge other cases are met than on the first (what was absent is
now a child or a list, holes are filled, lists have grown), but nothing is left to do.

* What is read from a value absorbs it (`Settles.self`): a node is merged with the members that it was
  made from.
* What a merge made of a field absorbs the value that was merged (`settles`).

Both are proved at once, by induction on the value. So a patch that succeeds is idempotent
(`patch_idempotent`).
-/

namespace Minifier

open Json Node

namespace Patch

variable {deep : Bool} {n m : Node} {members : List (String × Json)}

/-! ## Members that change nothing -/

/-- Merging the member into the node changes nothing. -/
inductive Absorbed (deep : Bool) (n : Node) : String × Json → Prop where
  | kind {name : String} (kind : n.kind = .ofName name) : Absorbed deep n ("type", .string name)
  | member {name : String} {json : Json} {field : Field Node} (ne : name ≠ "type")
      (get : n.get? name = some field) (made : merged deep (some field) json = ⟨field, none⟩) :
      Absorbed deep n (name, json)

theorem mergeNode_of_absorbed (h : ∀ entry ∈ members, Absorbed deep n entry) :
    mergeNode deep n members = ⟨n, none⟩ := by
  apply mergeNode_of_merges
  induction members with
  | nil => exact .nil n
  | cons entry rest ih =>
      obtain ⟨hentry, hrest⟩ := List.forall_mem_cons.mp h
      cases hentry with
      | @kind name hkind =>
          have hsame : { n with kind := .ofName name } = n := by
            obtain ⟨kind, fields⟩ := n
            cases hkind
            rfl
          exact .kind (hsame.symm ▸ ih hrest)
      | member hname hget hmade =>
          refine .member hname (by rw [hget]; exact hmade) ?_
          rw [set_eq_self hget]
          exact ih hrest

theorem Merges.kind_of_not_mem (h : Merges deep n members m)
    (hname : "type" ∉ members.map Prod.fst) : m.kind = n.kind := by
  induction h with
  | nil n => rfl
  | kind _ _ => exact absurd List.mem_cons_self hname
  | member _ _ _ ih => exact ih fun hmem => hname (List.mem_cons_of_mem _ hmem)

/-- The kind that a patch names is the kind of what it makes. -/
theorem Merges.absorbed_type (h : Merges deep n members m) (hnames : (members.map Prod.fst).Nodup)
    {json : Json} (hmem : ("type", json) ∈ members) : Absorbed deep m ("type", json) := by
  induction h with
  | nil n => cases hmem
  | kind hrest ih =>
      rw [List.map_cons, List.nodup_cons] at hnames
      rcases List.mem_cons.mp hmem with heq | hmem
      · cases heq
        exact .kind (hrest.kind_of_not_mem hnames.1)
      · exact ih hnames.2 hmem
  | member hname _ _ ih =>
      rw [List.map_cons, List.nodup_cons] at hnames
      rcases List.mem_cons.mp hmem with heq | hmem
      · cases heq
        exact absurd rfl hname
      · exact ih hnames.2 hmem

/-! ## Inside opaque objects -/

theorem mergeObject_of_absorbed {old new : List (String × Json)}
    (h : ∀ entry ∈ new, ∃ json, Entries.get? old entry.1 = some json ∧ mergeJson json entry.2 = json) :
    mergeObject old new = old := by
  induction new with
  | nil => rw [mergeObject]
  | cons entry rest ih =>
      obtain ⟨name, value⟩ := entry
      obtain ⟨⟨json, hget, hmerge⟩, hrest⟩ := List.forall_mem_cons.mp h
      rw [mergeObject, hget]
      dsimp only
      rw [hmerge, Entries.set_eq_self hget]
      exact ih hrest

theorem mergeJson_of_not_object {json : Json} (h : ∀ members, json ≠ .object members)
    (before : Json) : mergeJson before json = json := by
  unfold mergeJson
  split
  · exact absurd rfl (h _)
  · rfl

/-- If what a value makes of others absorbs it, it absorbs itself: it is what it makes of a null. -/
theorem mergeJson_self {json : Json}
    (h : ∀ before, mergeJson (mergeJson before json) json = mergeJson before json) :
    mergeJson json json = json := by
  have hnull : mergeJson .null json = json := by
    rw [mergeJson]
    simp
  have hagain := h .null
  rwa [hnull] at hagain

/-- A value that was merged into another inside an opaque object is absorbed by what it made. -/
theorem mergeJson_mergeJson : (json : Json) → json.isDistinct = true →
    ∀ before, mergeJson (mergeJson before json) json = mergeJson before json := by
  refine distinct_induction fun json _ hmembers _ before => ?_
  by_cases hobject : ∃ new, json = .object new
  · obtain ⟨new, rfl⟩ := hobject
    obtain ⟨hnames, hparts⟩ := hmembers new rfl
    have hself : ∀ entry ∈ new, mergeJson entry.2 entry.2 = entry.2 :=
      fun entry hmem => mergeJson_self (hparts entry hmem)
    have hold : ∀ old, mergeObject (mergeObject old new) new = mergeObject old new := by
      intro old
      apply mergeObject_of_absorbed
      rintro ⟨name, value⟩ hmem
      rw [get?_mergeObject hnames, Entries.get?_of_mem hnames hmem]
      cases Entries.get? old name with
      | none => exact ⟨value, rfl, hself _ hmem⟩
      | some json => exact ⟨_, rfl, hparts _ hmem json⟩
    have hnew : mergeObject new new = new := by
      apply mergeObject_of_absorbed
      rintro ⟨name, value⟩ hmem
      exact ⟨value, Entries.get?_of_mem hnames hmem, hself _ hmem⟩
    cases before with
    | object old => rw [mergeJson, mergeJson, hold]
    | _ => exact congrArg Json.object hnew
  · rw [mergeJson_of_not_object (not_exists.mp hobject), mergeJson_of_not_object (not_exists.mp hobject)]

theorem mergeField_object (old new : List (String × Json)) :
    mergeField (.value (.object old)) (.object new)
      = ⟨.value (mergeJson (.object old) (.object new)), none⟩ := by
  rw [mergeField, mergeJson]

/-! ## Fields -/

/-- What merging the value makes of a field absorbs the value. -/
def Settles (json : Json) : Prop :=
  ∀ field field' : Field Node, mergeField field json = ⟨field', none⟩ →
    mergeField field' json = ⟨field', none⟩

/-- What is read from a value absorbs it: that is what the value makes of a null. -/
theorem Settles.self {json : Json} (h : Settles json) :
    mergeField (Field.ofJson json) json = ⟨Field.ofJson json, none⟩ := by
  apply h (.value .null)
  rw [mergeField] <;> simp

theorem Merges.absorbed (h : Merges deep n members m) (hnames : (members.map Prod.fst).Nodup)
    (hsettles : ∀ entry ∈ members, Settles entry.2) : ∀ entry ∈ members, Absorbed deep m entry := by
  rintro ⟨name, json⟩ hmem
  by_cases hname : name = "type"
  · subst hname
    exact h.absorbed_type hnames hmem
  · obtain ⟨field, hmade, hget⟩ := h.get?_of_mem hnames hmem hname
    refine .member hname hget ?_
    cases deep with
    | false =>
        -- A shallow patch reads its values whatever they meet.
        have hread : field = Field.ofJson json := by
          cases hbefore : n.get? name <;> rw [hbefore] at hmade <;> cases hmade <;> rfl
        rw [hread]
        rfl
    | true =>
        cases hbefore : n.get? name with
        | none =>
            rw [hbefore] at hmade
            cases hmade
            exact (hsettles _ hmem).self
        | some before =>
            rw [hbefore] at hmade
            exact hsettles _ hmem before field hmade

theorem get?_fieldsOfMembers (hnames : (members.map Prod.fst).Nodup) {name : String} {json : Json}
    (hmem : (name, json) ∈ members) (hname : name ≠ "type") :
    Entries.get? (fieldsOfMembers members) name = some (Field.ofJson json) := by
  apply Entries.get?_of_mem
  · rw [names_fieldsOfMembers]
    exact hnames.filter _
  · induction members with
    | nil => cases hmem
    | cons member rest ih =>
        obtain ⟨other, value⟩ := member
        rw [List.map_cons, List.nodup_cons] at hnames
        rw [fieldsOfMembers]
        rcases List.mem_cons.mp hmem with heq | hmem
        · cases heq
          rw [if_neg hname]
          exact List.mem_cons_self
        · split
          · exact ih hnames.2 hmem
          · exact List.mem_cons_of_mem _ (ih hnames.2 hmem)

/-- A node absorbs the members that it was read from. -/
theorem absorbed_of_members (hnames : (members.map Prod.fst).Nodup)
    (hsettles : ∀ entry ∈ members, Settles entry.2) {kind : String}
    (hkind : typeName? members = some kind) :
    ∀ entry ∈ members, Absorbed true ⟨.ofName kind, fieldsOfMembers members⟩ entry := by
  rintro ⟨name, json⟩ hmem
  by_cases hname : name = "type"
  · subst hname
    rw [typeName?_eq_some_iff, Entries.get?_of_mem hnames hmem] at hkind
    cases hkind
    exact .kind rfl
  · exact .member hname (get?_fieldsOfMembers hnames hmem hname) (hsettles _ hmem).self

/-- A node that was read from a member of a list absorbs it. -/
theorem Settles.of_child {item : Json} {node : Node} (h : Settles item)
    (hitem : Field.ofJson item = .child node) :
    ∃ members, item = .object members ∧ mergeNode true node members = ⟨node, none⟩ := by
  obtain ⟨members, _, rfl, _⟩ := exists_ofJson_iff.mp ⟨node, ofJson_eq_ok_iff.mpr hitem⟩
  have hself := h.self
  rw [hitem, mergeField] at hself
  obtain ⟨node', hmerge, hnode⟩ := map_eq_none hself
  cases hnode
  exact ⟨members, rfl, hmerge⟩

/-- Slots absorb the items that they were read from. -/
theorem mergesSlots_slotsOfItems {items : List Json} (hslots : items.all isSlot = true)
    (hsettles : ∀ item ∈ items, Settles item) :
    MergesSlots (slotsOfItems items) items (slotsOfItems items) := by
  induction items with
  | nil => exact .nil []
  | cons item rest ih =>
      rw [List.all_cons, Bool.and_eq_true] at hslots
      rw [List.forall_mem_cons] at hsettles
      have hrest := ih hslots.2 hsettles.2
      rw [slotsOfItems]
      rcases isSlot_iff.mp hslots.1 with rfl | ⟨node, hnode⟩
      · exact .read (by simp) rfl hrest
      · obtain ⟨members, rfl, hmerge⟩ := hsettles.1.of_child hnode
        rw [hnode]
        exact .merge hmerge hrest

/-- Slots absorb the items that were merged into them. -/
theorem MergesSlots.absorbed {slots slots' : List (Option Node)} {items : List Json}
    (h : MergesSlots slots items slots') (hsettles : ∀ item ∈ items, Settles item) :
    MergesSlots slots' items slots' := by
  induction h with
  | nil slots => exact .nil slots
  | @merge node node' members _ _ _ hmade _ ih =>
      rw [List.forall_mem_cons] at hsettles
      have hfield : mergeField (.child node) (.object members) = ⟨.child node', none⟩ := by
        rw [mergeField, hmade]
        rfl
      have hagain := hsettles.1 _ _ hfield
      rw [mergeField] at hagain
      obtain ⟨node'', hmerge, hnode⟩ := map_eq_none hagain
      cases hnode
      exact .merge hmerge (ih hsettles.2)
  | @read slot _ _ item _ _ hmade _ ih =>
      rw [List.forall_mem_cons] at hsettles
      have hrest := ih hsettles.2
      cases slot with
      | none => exact .read (by simp) hmade hrest
      | some node =>
          -- The first time the item was read; now it meets the node that was read from it.
          obtain ⟨members, rfl, hmerge⟩ := hsettles.1.of_child (ofJson_of_slotOfJson hmade)
          exact .merge hmerge hrest

/-- What is read from a value absorbs it if its parts do. -/
theorem mergeField_ofJson {json : Json} (hjson : json.isDistinct = true)
    (hmembers : ∀ members, json = .object members →
      (members.map Prod.fst).Nodup ∧ ∀ entry ∈ members, Settles entry.2)
    (hitems : ∀ items, json = .array items → ∀ item ∈ items, Settles item) :
    mergeField (Field.ofJson json) json = ⟨Field.ofJson json, none⟩ := by
  cases json with
  | object members =>
      obtain ⟨hnames, hsettles⟩ := hmembers members rfl
      rw [Field.ofJson]
      cases hkind : typeName? members with
      | some kind =>
          dsimp only
          rw [mergeField, mergeNode_of_absorbed (absorbed_of_members hnames hsettles hkind)]
          rfl
      | none =>
          have hself := mergeJson_self (mergeJson_mergeJson (.object members) hjson)
          rw [mergeField_object, hself]
  | array items =>
      rw [Field.ofJson]
      split
      · rename_i hslots
        rw [mergeField, mergeSlots_of_mergesSlots (mergesSlots_slotsOfItems hslots (hitems items rfl))]
        rfl
      · rename_i hslots
        rw [mergeField, Field.ofJson, if_neg hslots] <;> simp
  | _ => rfl

theorem settles_of_parts {json : Json} (hjson : json.isDistinct = true)
    (hmembers : ∀ members, json = .object members →
      (members.map Prod.fst).Nodup ∧ ∀ entry ∈ members, Settles entry.2)
    (hitems : ∀ items, json = .array items → ∀ item ∈ items, Settles item) : Settles json := by
  intro field field' h
  have hmeeting := meeting field json
  generalize mergeField field json = result at hmeeting h
  cases hmeeting with
  | child node members =>
      obtain ⟨hnames, hsettles⟩ := hmembers members rfl
      obtain ⟨node', hmerge, rfl⟩ := map_eq_none h
      have habsorbed := (merges_of_mergeNode hmerge).absorbed hnames hsettles
      rw [mergeField, mergeNode_of_absorbed habsorbed]
      rfl
  | list slots items =>
      obtain ⟨slots', hmerge, rfl⟩ := map_eq_none h
      have habsorbed := (mergesSlots_of_mergeSlots hmerge).absorbed (hitems items rfl)
      rw [mergeField, mergeSlots_of_mergesSlots habsorbed]
      rfl
  | untyped old new =>
      rw [Attempt.mk.injEq] at h
      obtain ⟨rfl, _⟩ := h
      have hagain := mergeJson_mergeJson (.object new) hjson (.object old)
      rw [mergeJson] at hagain
      rw [mergeField_object, hagain]
  | other _ =>
      rw [Attempt.mk.injEq] at h
      obtain ⟨rfl, _⟩ := h
      exact mergeField_ofJson hjson hmembers hitems

theorem settles : (json : Json) → json.isDistinct = true → Settles json :=
  distinct_induction fun _ => settles_of_parts

end Patch

section Verb

variable {σ η : Type} {deep : Bool} {patch : Json} {c c' : Cursor η} {s s' : σ}

/-- **A patch is idempotent.** A patch that succeeds, deep or shallow, succeeds again where it has just been
applied, and changes nothing. -/
theorem patch_idempotent (hpatch : patch.isDistinct = true)
    (h : Action.patch deep patch (c, s) = .ok () (c', s')) :
    Action.patch deep patch (c', s') = .ok () (c', s') := by
  obtain ⟨members, rfl, hmerges⟩ := Action.merges_of_patch h
  rw [isDistinct_object_iff] at hpatch
  have habsorbed := hmerges.absorbed hpatch.1 fun entry hmem => Patch.settles _ (hpatch.2 entry hmem)
  rw [Action.patch_eq, Patch.apply, Patch.mergeNode_of_absorbed habsorbed]

/-- `[,]` -/
def sparseArray : Node := ⟨.arrayExpression, [("elements", .list [none])]⟩

/-- A patch that makes a pattern of it, `[a,, b]`, and puts a comment to it. -/
def growingPatch : Json :=
  .object
    [("elements", .array
      [.object [("name", .string "a"), ("type", .string "Identifier")], .null,
       .object [("type", .string "Identifier"), ("name", .string "b")]]),
     ("comment", .object [("text", .object [("length", .int 1)])]), ("type", .string "ArrayPattern")]

/-- The hole is filled, the list grows, a field is new and the kind is another; then nothing changes. -/
theorem patch_idempotent_growing :
    growingPatch.isDistinct = true ∧ ∃ c c' : Cursor Empty, c.node = sparseArray ∧
      (Action.patch true growingPatch : Action Unit Empty Unit) (c, ()) = .ok () (c', ()) ∧
      c'.node.kind = .arrayPattern ∧ (c'.node.children "elements").length = 2 ∧
      c'.node.has "comment" = true ∧
      (Action.patch true growingPatch : Action Unit Empty Unit) (c', ()) = .ok () (c', ()) := by
  have hdistinct : growingPatch.isDistinct = true := by decide +kernel
  let c : Cursor Empty := { root := sparseArray, path := [], node := sparseArray }
  obtain ⟨c', hc', hkind, hlength, hcomment⟩ : ∃ c' : Cursor Empty,
      (Action.patch true growingPatch : Action Unit Empty Unit) (c, ()) = .ok () (c', ()) ∧
      c'.node.kind = .arrayPattern ∧ (c'.node.children "elements").length = 2 ∧
      c'.node.has "comment" = true := ⟨_, rfl, rfl, rfl, rfl⟩
  exact ⟨hdistinct, c, c', rfl, hc', hkind, hlength, hcomment, patch_idempotent hdistinct hc'⟩

end Verb

end Minifier
