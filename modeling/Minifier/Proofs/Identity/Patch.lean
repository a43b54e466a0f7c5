import Minifier.Proofs.Edit.Canonical
import Minifier.Proofs.Identity.Forest

/-!
# Identities under a patch

A patch is merged into the nodes that are there. They keep their identities, and nodes get new ones only
where the patch puts a value in the place of what was there, or where nothing was.

* `made_apply`: a patch does to a tree what it does to the tree without identities, and no node comes to be
  twice.
* `at?_mergeNode`: a node that a patch `Retains` is found in its place, with its identity.
-/

namespace Minifier.Tagged.Patch

open Node (numberField numberSlots sizeOfField sizeOfSlots)

mutual

/-- Merge members into a node, with the next identity before and behind. -/
def mergeNode (deep : Bool) (t : Tagged) (next : Nat) :
    List (String × Json) → Attempt Tagged × Nat
  | [] => (⟨t, none⟩, next)
  | (name, json) :: rest =>
    if name = "type" then
      match json with
      | .string kind => mergeNode deep { t with kind := .ofName kind } next rest
      | _ => (⟨t, some (.edit .patchTypeNotString)⟩, next)
    else
      match t.get? name, deep with
      | some field, true =>
        match mergeField field next json with
        | (⟨field, none⟩, next) => mergeNode deep (t.set name field) next rest
        | (⟨field, some error⟩, next) => (⟨t.set name field, some error⟩, next)
      | _, _ =>
        mergeNode deep (t.set name (numberField .last (Field.ofJson json) next))
          (next + sizeOfField (Field.ofJson json)) rest

/-- Merge a value into a field. -/
def mergeField : Field Tagged → Nat → Json → Attempt (Field Tagged) × Nat
  | .child node, next, .object members =>
    let (made, next) := mergeNode true node next members
    (made.map .child, next)
  | .list slots, next, .array items =>
    let (made, next) := mergeSlots slots next items
    (made.map .list, next)
  | .value (.object old), next, .object new =>
    (⟨.value (.object (Minifier.Patch.mergeObject old new)), none⟩, next)
  | _, next, json =>
    (⟨numberField .last (Field.ofJson json) next, none⟩, next + sizeOfField (Field.ofJson json))

/-- Merge items into slots: an object into a node, any other item in the place of what is there, and
items without a slot behind the last. -/
def mergeSlots : List (Option Tagged) → Nat → List Json → Attempt (List (Option Tagged)) × Nat
  | slots, next, [] => (⟨slots, none⟩, next)
  | some node :: slots, next, .object members :: items =>
    match mergeNode true node next members with
    | (⟨node, none⟩, next) =>
      let (made, next) := mergeSlots slots next items
      (made.map (some node :: ·), next)
    | (⟨node, some error⟩, next) => (⟨some node :: slots, some error⟩, next)
  | slots, next, item :: items =>
    match slotOfJson item with
    | .ok slot =>
      let (made, next') := mergeSlots slots.tail (next + sizeOfSlots [slot]) items
      (made.map (numberSlots .last [slot] next ++ ·), next')
    | .error error => (⟨slots, some error⟩, next)

end

/-- Merge a patch into a node; only an object is a patch. -/
def apply (deep : Bool) (t : Tagged) (next : Nat) : Json → Attempt Tagged × Nat
  | .object members => mergeNode deep t next members
  | _ => (⟨t, some (.edit .patchNotObject)⟩, next)

/-! ## What a merge makes -/

/-- What was made is what is made without identities, and no identity has come up more often. -/
structure Made {α β : Type} (forget : α → β) (ids : α → List Nat) (before : α) (next : Nat)
    (made : Attempt α × Nat) (plain : Attempt β) : Prop where
  forget_eq : made.1.map forget = plain
  conserved : Conserved next made.2 (ids before) (ids made.1.result)

variable {t : Tagged} {name : String} {next next' : Nat}

/-- What a member of a patch makes of the field that it names. -/
def merged (deep : Bool) (field? : Option (Field Tagged)) (next : Nat) (json : Json) :
    Attempt (Field Tagged) × Nat :=
  match field?, deep with
  | some field, true => mergeField field next json
  | _, _ =>
    (⟨numberField .last (Field.ofJson json) next, none⟩, next + sizeOfField (Field.ofJson json))

theorem mergeNode_cons (deep : Bool) (t : Tagged) (next : Nat) (name : String) (json : Json)
    (rest : List (String × Json)) :
    mergeNode deep t next ((name, json) :: rest) =
      if name = "type" then
        match json with
        | .string kind => mergeNode deep { t with kind := .ofName kind } next rest
        | _ => (⟨t, some (.edit .patchTypeNotString)⟩, next)
      else
        match merged deep (t.get? name) next json with
        | (⟨field, none⟩, next) => mergeNode deep (t.set name field) next rest
        | (⟨field, some error⟩, next) => (⟨t.set name field, some error⟩, next) := by
  rw [mergeNode.eq_def]
  dsimp only
  congr 1
  unfold merged
  cases t.get? name <;> cases deep <;> rfl

theorem mergeSlots_read {slots : List (Option Tagged)} {item : Json} (next : Nat) (items : List Json)
    (h : ∀ node rest members, slots = some node :: rest → item = .object members → False) :
    mergeSlots slots next (item :: items) =
      match slotOfJson item with
      | .ok slot =>
        let (made, next') := mergeSlots slots.tail (next + sizeOfSlots [slot]) items
        (made.map (numberSlots .last [slot] next ++ ·), next')
      | .error error => (⟨slots, some error⟩, next) := by
  rw [mergeSlots]
  exact h

/-- What a field holds, if it is there. -/
def idsOfField? (field? : Option (Field Tagged)) : List Nat := (field?.map idsOfField).getD []

theorem conserved_set {new : Field Tagged}
    (h : Conserved next next' (idsOfField? (t.get? name)) (idsOfField new)) :
    Conserved next next' t.ids (t.set name new).ids := by
  refine ⟨h.next_le, fun i => ?_⟩
  have hcount := h.count_le i
  cases hget : t.get? name with
  | none =>
      have hset := count_set_of_none hget new i
      simp only [hget, idsOfField?, Option.map_none, Option.getD_none, List.count_nil] at hcount
      omega
  | some old =>
      have hset := count_set hget new i
      simp only [hget, idsOfField?, Option.map_some, Option.getD_some] at hcount
      omega

/-- A value in the place of whatever was there. -/
theorem conserved_number (field : Field Node) (next : Nat) (before : List Nat) :
    Conserved next (next + sizeOfField field) before (idsOfField (numberField .last field next)) := by
  refine (conserved_draw (Node.perm_ids_numberField .last field next) before).mono
    (fun _ => Nat.le_refl _) fun i => ?_
  rw [List.count_append]
  exact Nat.le_add_right ..

theorem made_number (field : Field Tagged) (next : Nat) (json : Json) :
    Made forgetField idsOfField field next
      (⟨numberField .last (Field.ofJson json) next, none⟩, next + sizeOfField (Field.ofJson json))
      ⟨Field.ofJson json, none⟩ :=
  ⟨by simp only [Attempt.map, Node.forget_numberField], conserved_number ..⟩

/-- Where there is nothing to merge. -/
theorem made_other {field : Field Tagged} {json : Json}
    (hchild : ∀ node members, field = .child node → json = .object members → False)
    (hlist : ∀ slots items, field = .list slots → json = .array items → False)
    (hraw : ∀ old new, field = .value (.object old) → json = .object new → False) (next : Nat) :
    Made forgetField idsOfField field next (mergeField field next json)
      (Minifier.Patch.mergeField (forgetField field) json) := by
  rw [mergeField, Minifier.Patch.mergeField]
  · exact made_number field next json
  · intro node members hfield
    cases field with
    | child first => exact hchild first members rfl
    | _ => cases hfield
  · intro slots items hfield
    cases field with
    | list slots => exact hlist slots items rfl
    | _ => cases hfield
  · intro old new hfield
    cases field with
    | value json => exact hraw old new (by cases hfield; rfl)
    | _ => cases hfield
  · exact hchild
  · exact hlist
  · exact hraw

theorem made_read {slots : List (Option Tagged)} {item : Json} {items : List Json}
    (h : ∀ node rest members, slots = some node :: rest → item = .object members → False)
    (hrest : ∀ next, Made forgetSlots idsOfSlots slots.tail next (mergeSlots slots.tail next items)
      (Minifier.Patch.mergeSlots (forgetSlots slots.tail) items)) (next : Nat) :
    Made forgetSlots idsOfSlots slots next (mergeSlots slots next (item :: items))
      (Minifier.Patch.mergeSlots (forgetSlots slots) (item :: items)) := by
  have hplain : ∀ node rest members, forgetSlots slots = some node :: rest →
      item = .object members → False := by
    intro node rest members hslots
    cases slots with
    | nil => cases hslots
    | cons slot slots =>
        cases slot with
        | none => cases hslots
        | some first => exact h first slots members rfl
  have htail : forgetSlots slots.tail = (forgetSlots slots).tail := by
    simp only [forgetSlots_eq_map, List.map_tail]
  rw [mergeSlots_read next items h, Minifier.Patch.mergeSlots]
  · cases slotOfJson item with
    | error error => exact ⟨rfl, .refl ..⟩
    | ok slot =>
        have hmade := hrest (next + sizeOfSlots [slot])
        rw [htail] at hmade
        dsimp only
        rw [← hmade.forget_eq]
        refine ⟨?_, ?_⟩
        · simp only [Attempt.map, forgetSlots_eq_map, List.map_append]
          simp only [← forgetSlots_eq_map, Node.forget_numberSlots, List.singleton_append]
        · have hdraw := conserved_draw (Node.perm_ids_numberSlots .last [slot] next) (idsOfSlots slots.tail)
          refine (hdraw.trans ?_).mono ?_ fun _ => Nat.le_refl _
          · refine ⟨hmade.conserved.next_le, fun i => ?_⟩
            have hcount := hmade.conserved.count_le i
            simp only [Attempt.map, count_slots_append, List.count_append]
            omega
          · intro i
            cases slots with
            | nil => exact Nat.le_refl _
            | cons first slots =>
                rw [count_slots_cons]
                exact Nat.le_add_left ..
  · exact hplain

mutual

theorem made_mergeNode (deep : Bool) : ∀ (members : List (String × Json)) (t : Tagged) (next : Nat),
    Made forget ids t next (mergeNode deep t next members)
      (Minifier.Patch.mergeNode deep t.forget members)
  | [], t, next => ⟨rfl, .refl ..⟩
  | (name, json) :: rest, t, next => by
      rw [mergeNode_cons, Minifier.Patch.mergeNode_cons]
      by_cases hname : name = "type"
      · rw [if_pos hname, if_pos hname]
        cases json with
        | string kind =>
            obtain ⟨id, old, fields⟩ := t
            have hrest := made_mergeNode deep rest ⟨id, .ofName kind, fields⟩ next
            exact ⟨hrest.forget_eq, hrest.conserved⟩
        | _ => exact ⟨rfl, .refl ..⟩
      · rw [if_neg hname, if_neg hname]
        have hmerged : (merged deep (t.get? name) next json).1.map forgetField
              = Minifier.Patch.merged deep (t.forget.get? name) json ∧
            Conserved next (merged deep (t.get? name) next json).2 (idsOfField? (t.get? name))
              (idsOfField (merged deep (t.get? name) next json).1.result) := by
          rw [forget_get?]
          cases t.get? name with
          | none => exact ⟨(made_number (.value .null) next json).forget_eq, conserved_number ..⟩
          | some field =>
              cases deep with
              | false => exact ⟨(made_number field next json).forget_eq, conserved_number ..⟩
              | true =>
                  have hfield := made_mergeField json field next
                  exact ⟨hfield.forget_eq, hfield.conserved⟩
        rw [← hmerged.1]
        have hset := conserved_set hmerged.2
        revert hset
        obtain ⟨⟨made, error⟩, next'⟩ := merged deep (t.get? name) next json
        intro hset
        cases error with
        | none =>
            have hrest := made_mergeNode deep rest (t.set name made) next'
            rw [forget_set] at hrest
            exact ⟨hrest.forget_eq, hset.trans hrest.conserved⟩
        | some error =>
            refine ⟨?_, hset⟩
            simp only [Attempt.map, forget_set]

theorem made_mergeField : ∀ (json : Json) (field : Field Tagged) (next : Nat),
    Made forgetField idsOfField field next (mergeField field next json)
      (Minifier.Patch.mergeField (forgetField field) json)
  | .object members, .child node, next => by
      have hnode := made_mergeNode true members node next
      rw [mergeField, forgetField, Minifier.Patch.mergeField, ← hnode.forget_eq]
      exact ⟨rfl, hnode.conserved⟩
  | .array items, .list slots, next => by
      have hslots := made_mergeSlots items slots next
      rw [mergeField, forgetField, Minifier.Patch.mergeField, ← hslots.forget_eq]
      exact ⟨rfl, hslots.conserved⟩
  | .object new, .value (.object old), next => ⟨rfl, .refl ..⟩
  | .object new, .value .null, next => made_other (by simp) (by simp) (by simp) next
  | .object new, .value (.bool _), next => made_other (by simp) (by simp) (by simp) next
  | .object new, .value (.number _), next => made_other (by simp) (by simp) (by simp) next
  | .object new, .value (.string _), next => made_other (by simp) (by simp) (by simp) next
  | .object new, .value (.array _), next => made_other (by simp) (by simp) (by simp) next
  | .object new, .list slots, next => made_other (by simp) (by simp) (by simp) next
  | .array items, .child node, next => made_other (by simp) (by simp) (by simp) next
  | .array items, .value old, next => made_other (by simp) (by simp) (by simp) next
  | .null, field, next => made_other (by simp) (by simp) (by simp) next
  | .bool b, field, next => made_other (by simp) (by simp) (by simp) next
  | .number x, field, next => made_other (by simp) (by simp) (by simp) next
  | .string s, field, next => made_other (by simp) (by simp) (by simp) next

theorem made_mergeSlots : ∀ (items : List Json) (slots : List (Option Tagged)) (next : Nat),
    Made forgetSlots idsOfSlots slots next (mergeSlots slots next items)
      (Minifier.Patch.mergeSlots (forgetSlots slots) items)
  | [], slots, next => by
      rw [mergeSlots, Minifier.Patch.mergeSlots]
      exact ⟨rfl, .refl ..⟩
  | .object members :: items, some node :: slots, next => by
      have hnode := made_mergeNode true members node next
      rw [mergeSlots, forgetSlots, Minifier.Patch.mergeSlots, ← hnode.forget_eq]
      have hconserved := hnode.conserved.frame (idsOfSlots slots)
      revert hconserved
      obtain ⟨⟨made, error⟩, next'⟩ := mergeNode true node next members
      intro hconserved
      cases error with
      | none =>
          have hrest := made_mergeSlots items slots next'
          dsimp only [Attempt.map]
          rw [← hrest.forget_eq]
          refine ⟨rfl, hconserved.trans ⟨hrest.conserved.next_le, fun i => ?_⟩⟩
          have hcount := hrest.conserved.count_le i
          simp only [idsOfSlots, List.count_append]
          omega
      | some error => exact ⟨rfl, hconserved⟩
  | .object members :: items, [], next => made_read (by simp) (made_mergeSlots items _) next
  | .object members :: items, none :: slots, next =>
      made_read (by simp) (made_mergeSlots items _) next
  | .array inner :: items, slots, next => made_read (by simp) (made_mergeSlots items _) next
  | .null :: items, slots, next => made_read (by simp) (made_mergeSlots items _) next
  | .bool b :: items, slots, next => made_read (by simp) (made_mergeSlots items _) next
  | .number x :: items, slots, next => made_read (by simp) (made_mergeSlots items _) next
  | .string s :: items, slots, next => made_read (by simp) (made_mergeSlots items _) next

end

theorem made_apply (deep : Bool) (t : Tagged) (next : Nat) (json : Json) :
    Made forget ids t next (apply deep t next json) (Minifier.Patch.apply deep t.forget json) := by
  cases json with
  | object members => exact made_mergeNode deep members t next
  | _ => exact ⟨rfl, .refl ..⟩

/-! ## What stays in its place -/

theorem id_mergeNode (deep : Bool) (members : List (String × Json)) (t : Tagged) (next : Nat) :
    (mergeNode deep t next members).1.result.id = t.id := by
  induction members generalizing t next with
  | nil => rfl
  | cons entry rest ih =>
      obtain ⟨name, json⟩ := entry
      rw [mergeNode_cons]
      split
      · split
        · exact ih ..
        · rfl
      · split
        · exact ih ..
        · rfl

theorem id_apply (deep : Bool) (t : Tagged) (next : Nat) (json : Json) :
    (apply deep t next json).1.result.id = t.id := by
  cases json with
  | object members => exact id_mergeNode deep members t next
  | _ => rfl

/-- The members leave the node at a position where it is: no member names the field on the way to it, or the
one that does is merged into what is there. -/
def Retains : Path → Bool → List (String × Json) → Prop
  | [], _, _ => True
  | step :: rest, deep, members => ∀ json, (step.field, json) ∈ members → deep = true ∧
    match step.index, json with
    | none, .object inner => Retains rest true inner
    | some k, .array items =>
      match items[k]? with
      | none => True
      | some (.object inner) => Retains rest true inner
      | some _ => False
    | _, _ => False

/-- A slot that only objects are merged into holds what comes of its node. -/
theorem getElem?_mergeSlots {P : Tagged → Prop} {c : Tagged} (hc : P c) {items : List Json}
    {slots : List (Option Tagged)} {k : Nat} (hslot : slots[k]? = some (some c))
    (hitem : ∀ item, items[k]? = some item →
      ∃ inner, item = .object inner ∧ ∀ next, P (mergeNode true c next inner).1.result) (next : Nat) :
    ∃ c', (mergeSlots slots next items).1.result[k]? = some (some c') ∧ P c' := by
  induction items generalizing slots k next with
  | nil =>
      rw [mergeSlots]
      exact ⟨c, hslot, hc⟩
  | cons item items ih =>
      by_cases hmeet : ∃ node rest members, slots = some node :: rest ∧ item = .object members
      · obtain ⟨node, rest, members, rfl, rfl⟩ := hmeet
        rw [mergeSlots]
        cases k with
        | zero =>
            obtain ⟨inner, hinner, hP⟩ := hitem _ rfl
            cases hinner
            cases hslot
            have hmade := hP next
            split
            · rename_i heq
              rw [heq] at hmade
              exact ⟨_, rfl, hmade⟩
            · rename_i heq
              rw [heq] at hmade
              exact ⟨_, rfl, hmade⟩
        | succ k =>
            split
            · exact ih (by simpa using hslot) hitem _
            · exact ⟨c, hslot, hc⟩
      · rw [mergeSlots_read next items fun node rest members hslots hobject =>
          hmeet ⟨node, rest, members, hslots, hobject⟩]
        cases k with
        | zero =>
            obtain ⟨inner, rfl, _⟩ := hitem _ rfl
            obtain ⟨rest, rfl⟩ := List.head?_eq_some_iff.mp ((List.head?_eq_getElem? ..).trans hslot)
            exact absurd ⟨c, rest, inner, rfl, rfl⟩ hmeet
        | succ k =>
            cases slotOfJson item with
            | error error => exact ⟨c, hslot, hc⟩
            | ok slot =>
                have htail : slots.tail[k]? = some (some c) := by rwa [List.getElem?_tail]
                obtain ⟨c', hc', hP⟩ := ih htail hitem (next + sizeOfSlots [slot])
                refine ⟨c', ?_, hP⟩
                cases slot <;> exact hc'

/-- Members that leave alone what a step leads to, or make of it what has the property. -/
theorem step?_mergeNode {P : Tagged → Prop} {step : Step} {deep : Bool}
    {members : List (String × Json)}
    (hmerged : ∀ json, (step.field, json) ∈ members → ∀ t c : Tagged, t.step? step = some c → P c →
      ∀ next, ∃ c', (t.set step.field
        (merged deep (t.get? step.field) next json).1.result).step? step = some c' ∧ P c')
    (t c : Tagged) (hstep : t.step? step = some c) (hc : P c) (next : Nat) :
    ∃ c', (mergeNode deep t next members).1.result.step? step = some c' ∧ P c' := by
  induction members generalizing t c next with
  | nil => exact ⟨c, hstep, hc⟩
  | cons entry rest ih =>
      obtain ⟨name, json⟩ := entry
      have hrest := ih fun json hmem => hmerged json (List.mem_cons_of_mem _ hmem)
      rw [mergeNode_cons]
      split
      · split
        · exact hrest { t with kind := _ } c hstep hc next
        · exact ⟨c, hstep, hc⟩
      · have hset : ∃ c', (t.set name (merged deep (t.get? name) next json).1.result).step? step
            = some c' ∧ P c' := by
          by_cases hname : step.field = name
          · subst hname
            exact hmerged json (List.mem_cons_self ..) t c hstep hc next
          · exact ⟨c, by rw [step?_congr (get?_set_of_ne hname), hstep], hc⟩
        obtain ⟨c', hstep', hc'⟩ := hset
        split
        · rename_i heq
          rw [heq] at hstep'
          exact hrest _ c' hstep' hc' _
        · rename_i heq
          rw [heq] at hstep'
          exact ⟨c', hstep', hc'⟩

/-- **A node that a patch leaves where it is keeps its identity,** also if the patch fails half-way. -/
theorem at?_mergeNode {p : Path} {deep : Bool} {members : List (String × Json)}
    (hretains : Retains p deep members) {t n : Tagged} (h : t.at? p = some n) (next : Nat) :
    ∃ m, (mergeNode deep t next members).1.result.at? p = some m ∧ m.id = n.id := by
  induction p generalizing deep members t n next with
  | nil =>
      cases h
      exact ⟨_, rfl, id_mergeNode ..⟩
  | cons step rest ih =>
      obtain ⟨c, hstep, hrest⟩ := Option.bind_eq_some_iff.mp h
      obtain ⟨c', hstep', m, hm, hid⟩ : ∃ c', (mergeNode deep t next members).1.result.step? step = some c' ∧
          ∃ m, c'.at? rest = some m ∧ m.id = n.id := by
        refine step?_mergeNode (P := fun c => ∃ m, c.at? rest = some m ∧ m.id = n.id) ?_ t c hstep
          ⟨n, hrest, rfl⟩ next
        rintro json hmem t c hstep ⟨m, hm, hid⟩ next
        obtain ⟨rfl, hmatch⟩ := hretains json hmem
        -- What is merged into the node in the slot keeps what is below it in place.
        have hinner : ∀ inner, Retains rest true inner → ∀ next, ∃ m',
            (mergeNode true c next inner).1.result.at? rest = some m' ∧ m'.id = n.id := by
          intro inner hretains next
          obtain ⟨m', hm', hid'⟩ := ih hretains hm next
          exact ⟨m', hm', hid'.trans hid⟩
        obtain ⟨field, index⟩ := step
        cases index with
        | none =>
            have hget := step?_child_eq_some_iff.mp hstep
            cases json with
            | object inner =>
                refine ⟨(mergeNode true c next inner).1.result, ?_, hinner inner hmatch next⟩
                rw [hget]
                exact step?_child_eq_some_iff.mpr (get?_set_self ..)
            | _ => exact hmatch.elim
        | some k =>
            obtain ⟨slots, hget, hslot⟩ := step?_slot_eq_some_iff.mp hstep
            cases json with
            | array items =>
                obtain ⟨c', hc', hP⟩ := getElem?_mergeSlots
                  (P := fun c => ∃ m, c.at? rest = some m ∧ m.id = n.id) ⟨m, hm, hid⟩ hslot
                  (fun item (hitem : items[k]? = some item) => by
                    simp only [hitem] at hmatch
                    cases item with
                    | object inner => exact ⟨inner, rfl, hinner inner hmatch⟩
                    | _ => exact hmatch.elim) next
                refine ⟨c', ?_, hP⟩
                rw [hget]
                exact step?_slot_eq_some_iff.mpr ⟨_, get?_set_self .., hc'⟩
            | _ => exact hmatch.elim
      exact ⟨m, by rw [at?_cons, hstep']; exact hm, hid⟩

end Minifier.Tagged.Patch
