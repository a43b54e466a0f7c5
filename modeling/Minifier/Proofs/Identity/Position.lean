import Minifier.Proofs.Identity.Tree

/-!
# Identities and positions

Positions in a tree with identities: reading a node (`at?`), changing it (`modifyAt`), taking it out (`detach`)
and putting one in (`attach`). Each does what it does in the tree without identities (`forget_at?`,
`forget_modifyAt`, `forget_detach`, `forget_attach`).

What is done at a position concerns its node alone. Taking a node out and putting another one in is changing
the node at the position (`attach_detach`), and the identities in the tree change by those in the node
(`count_modifyAt`). If no identity comes up twice, it tells the position of its node (`path_eq`).
-/

namespace Minifier.Tagged

/-! ### One step -/

/-- The node one step down. -/
def step? (t : Tagged) (step : Step) : Option Tagged :=
  match step.index with
  | none => t.child? step.field
  | some i => (t.slots? step.field).bind fun slots => slots[i]?.join

/-- Fill the slot one step down, or empty it. Only slots that a list has can be filled. -/
def fill (t : Tagged) (step : Step) (content : Option Tagged) : Tagged :=
  match step.index with
  | none => t.set step.field ((content.map Field.child).getD (.value .null))
  | some i =>
    match t.slots? step.field with
    | some slots => t.set step.field (.list (slots.set i content))
    | none => t

/-! ### Whole paths -/

/-- The node at a position. -/
def at? (t : Tagged) : Path → Option Tagged
  | [] => some t
  | step :: rest => (t.step? step).bind (·.at? rest)

/-- Change the node at a position, if there is one. -/
def modifyAt (t : Tagged) (f : Tagged → Tagged) : Path → Tagged
  | [] => f t
  | step :: rest =>
    match t.step? step with
    | some child => t.fill step (some (child.modifyAt f rest))
    | none => t

/-- Take out the node at a position: the node, and the tree with the slot empty. What stands in for the root
while it is taken out is a node of its own, with the given identity. -/
def detach (t : Tagged) (next : Nat) : Path → Option (Tagged × Tagged)
  | [] => some (t, Node.placeholder.number .first next)
  | [step] => (t.step? step).map fun child => (child, t.fill step none)
  | step :: rest => do
    let child ← t.step? step
    let (taken, left) ← child.detach next rest
    some (taken, t.fill step (some left))

/-- Put a node into the slot at a position. -/
def attach (t : Tagged) (node : Tagged) : Path → Tagged
  | [] => node
  | [step] => t.fill step (some node)
  | step :: rest =>
    match t.step? step with
    | some child => t.fill step (some (child.attach node rest))
    | none => t

/-! ## Steps -/

@[simp] theorem id_fill (t : Tagged) (step : Step) (content : Option Tagged) :
    (t.fill step content).id = t.id := by
  obtain ⟨field, index⟩ := step
  cases index with
  | none => rfl
  | some i =>
      simp only [fill]
      split <;> rfl

theorem step?_slot_eq_some_iff {t c : Tagged} {field : String} {i : Nat} :
    t.step? ⟨field, some i⟩ = some c ↔
      ∃ slots, t.get? field = some (.list slots) ∧ slots[i]? = some (some c) := by
  simp [step?, slots?_eq_some_iff, Option.bind_eq_some_iff, Option.join_eq_some_iff]

theorem step?_child_eq_some_iff {t c : Tagged} {field : String} :
    t.step? ⟨field, none⟩ = some c ↔ t.get? field = some (.child c) :=
  child?_eq_some_iff

/-- Filling a slot writes the field that holds it. -/
theorem fill_slot {t : Tagged} {field : String} {slots : List (Option Tagged)}
    (h : t.get? field = some (.list slots)) (i : Nat) (content : Option Tagged) :
    t.fill ⟨field, some i⟩ content = t.set field (.list (slots.set i content)) := by
  simp only [fill, slots?_eq_some_iff.mpr h]

@[simp] theorem fill_fill (t : Tagged) (step : Step) (first second : Option Tagged) :
    (t.fill step first).fill step second = t.fill step second := by
  obtain ⟨field, index⟩ := step
  cases index with
  | none => simp [fill]
  | some i =>
      cases hslots : t.slots? field with
      | none => simp only [fill, hslots]
      | some slots =>
          have hget := slots?_eq_some_iff.mp hslots
          rw [fill_slot hget, fill_slot (get?_set_self ..), fill_slot hget, set_set, List.set_set]

theorem fill_eq_self {t c : Tagged} {step : Step} (h : t.step? step = some c) :
    t.fill step (some c) = t := by
  obtain ⟨field, index⟩ := step
  cases index with
  | none => exact set_eq_self (child?_eq_some_iff.mp h)
  | some i =>
      obtain ⟨slots, hget, hslot⟩ := step?_slot_eq_some_iff.mp h
      obtain ⟨hlt, hitem⟩ := List.getElem?_eq_some_iff.mp hslot
      rw [fill_slot hget, ← hitem, List.set_getElem_self]
      exact set_eq_self hget

theorem step?_fill {t c : Tagged} {step : Step} (h : t.step? step = some c) (node : Tagged) :
    (t.fill step (some node)).step? step = some node := by
  obtain ⟨field, index⟩ := step
  cases index with
  | none => exact child?_eq_some_iff.mpr (get?_set_self ..)
  | some i =>
      obtain ⟨slots, hget, hslot⟩ := step?_slot_eq_some_iff.mp h
      obtain ⟨hlt, _⟩ := List.getElem?_eq_some_iff.mp hslot
      rw [fill_slot hget]
      exact step?_slot_eq_some_iff.mpr ⟨_, get?_set_self .., by simp [hlt]⟩

/-- A step only reads the field that it goes through. -/
theorem step?_congr {t u : Tagged} {step : Step} (h : t.get? step.field = u.get? step.field) :
    t.step? step = u.step? step := by
  unfold step? child? slots?
  rw [h]

theorem get?_fill_of_ne {t : Tagged} {step : Step} {content : Option Tagged} {name : String}
    (h : name ≠ step.field) : (t.fill step content).get? name = t.get? name := by
  obtain ⟨field, index⟩ := step
  cases index with
  | none => exact get?_set_of_ne h
  | some i =>
      simp only [fill]
      split
      · exact get?_set_of_ne h
      · rfl

/-- Filling one slot leaves every other slot as it is. -/
theorem step?_fill_of_ne {t c : Tagged} {step other : Step} (h : t.step? step = some c)
    (hne : other ≠ step) (content : Option Tagged) :
    (t.fill step content).step? other = t.step? other := by
  by_cases hfield : other.field = step.field
  · obtain ⟨field, index⟩ := step
    obtain ⟨field', index'⟩ := other
    have hfield : field' = field := hfield
    subst hfield
    have hindex : index' ≠ index := fun he => hne (by rw [he])
    cases index with
    | none =>
        have hget := child?_eq_some_iff.mp h
        cases index' with
        | none => exact absurd rfl hindex
        | some j => cases content <;> simp [fill, step?, slots?, hget, Field.slots?]
    | some i =>
        obtain ⟨slots, hget, _⟩ := step?_slot_eq_some_iff.mp h
        rw [fill_slot hget]
        cases index' with
        | none => simp [step?, child?, hget, Field.child?]
        | some j =>
            have hji : i ≠ j := fun he => hindex (by rw [he])
            simp only [step?, slots?, get?_set_self, hget, Option.bind_some, Field.slots?]
            rw [List.getElem?_set_ne hji]
  · exact step?_congr (get?_fill_of_ne hfield)

/-! ## Paths -/

@[simp] theorem at?_cons (t : Tagged) (step : Step) (rest : Path) :
    t.at? (step :: rest) = (t.step? step).bind (·.at? rest) := rfl

theorem at?_append (t : Tagged) (p q : Path) : t.at? (p ++ q) = (t.at? p).bind (·.at? q) := by
  induction p generalizing t with
  | nil => rfl
  | cons step rest ih =>
      simp only [List.cons_append, at?_cons, Option.bind_assoc]
      congr 1
      funext child
      exact ih child

theorem modifyAt_cons {t c : Tagged} {step : Step} (h : t.step? step = some c) (f : Tagged → Tagged)
    (rest : Path) : t.modifyAt f (step :: rest) = t.fill step (some (c.modifyAt f rest)) := by
  simp only [modifyAt, h]

theorem id_modifyAt_cons (t : Tagged) (f : Tagged → Tagged) (step : Step) (rest : Path) :
    (t.modifyAt f (step :: rest)).id = t.id := by
  rw [modifyAt]
  split
  · exact id_fill ..
  · rfl

/-- What is changed below a position is changed in its node. -/
theorem modifyAt_append (t : Tagged) (f : Tagged → Tagged) (p q : Path) :
    t.modifyAt f (p ++ q) = t.modifyAt (·.modifyAt f q) p := by
  induction p generalizing t with
  | nil => rfl
  | cons step rest ih =>
      simp only [List.cons_append, modifyAt]
      cases t.step? step with
      | none => rfl
      | some c => simp only [ih]

theorem modifyAt_of_none {t : Tagged} {p : Path} (h : t.at? p = none) (f : Tagged → Tagged) :
    t.modifyAt f p = t := by
  induction p generalizing t with
  | nil => cases h
  | cons step rest ih =>
      cases hstep : t.step? step with
      | none => simp only [modifyAt, hstep]
      | some c =>
          rw [at?_cons, hstep] at h
          rw [modifyAt_cons hstep, ih h, fill_eq_self hstep]

theorem modifyAt_same (t : Tagged) (p : Path) : t.modifyAt (fun n => n) p = t := by
  induction p generalizing t with
  | nil => rfl
  | cons step rest ih =>
      cases hstep : t.step? step with
      | none => simp only [modifyAt, hstep]
      | some c => rw [modifyAt_cons hstep, ih, fill_eq_self hstep]

theorem at?_modifyAt (t : Tagged) (f : Tagged → Tagged) (p : Path) :
    (t.modifyAt f p).at? p = (t.at? p).map f := by
  induction p generalizing t with
  | nil => rfl
  | cons step rest ih =>
      cases hstep : t.step? step with
      | none => simp only [modifyAt, at?_cons, hstep, Option.bind_none, Option.map_none]
      | some c =>
          rw [modifyAt_cons hstep, at?_cons, at?_cons, step?_fill hstep, hstep]
          exact ih c

theorem modifyAt_modifyAt (t : Tagged) (f g : Tagged → Tagged) (p : Path) :
    (t.modifyAt f p).modifyAt g p = t.modifyAt (fun n => g (f n)) p := by
  induction p generalizing t with
  | nil => rfl
  | cons step rest ih =>
      cases hstep : t.step? step with
      | none => simp only [modifyAt, hstep]
      | some c =>
          rw [modifyAt_cons hstep, modifyAt_cons (step?_fill hstep _), modifyAt_cons hstep, ih, fill_fill]

/-- A node that is taken out is the one at the position, and to put a node in afterwards is to change it. -/
theorem attach_detach {t node left : Tagged} {next : Nat} {p : Path}
    (h : t.detach next p = some (node, left)) :
    t.at? p = some node ∧ ∀ m, left.attach m p = t.modifyAt (fun _ => m) p := by
  induction p generalizing t left with
  | nil =>
      cases h
      exact ⟨rfl, fun _ => rfl⟩
  | cons step rest ih =>
      cases rest with
      | nil =>
          obtain ⟨child, hstep, hpair⟩ := Option.map_eq_some_iff.mp h
          cases hpair
          refine ⟨by rw [at?_cons, hstep]; rfl, fun m => ?_⟩
          rw [attach, fill_fill, modifyAt_cons hstep, modifyAt]
      | cons other rest =>
          obtain ⟨child, hstep, hbind⟩ := Option.bind_eq_some_iff.mp h
          obtain ⟨⟨taken, below⟩, hdetach, hpair⟩ := Option.bind_eq_some_iff.mp hbind
          cases hpair
          obtain ⟨hat, hattach⟩ := ih hdetach
          refine ⟨by rw [at?_cons, hstep]; exact hat, fun m => ?_⟩
          rw [modifyAt_cons hstep, ← hattach m]
          simp only [attach, step?_fill hstep, fill_fill]

/-! ## Forgetting identities -/

theorem forget_step? (t : Tagged) (step : Step) :
    t.forget.step? step = (t.step? step).map forget := by
  obtain ⟨field, index⟩ := step
  cases index with
  | none => exact forget_child? t field
  | some i =>
      simp only [Node.step?, step?, forget_slots?]
      cases t.slots? field with
      | none => rfl
      | some slots =>
          simp only [Option.map_some, Option.bind_some, forgetSlots_eq_map, List.getElem?_map]
          cases slots[i]? with
          | none => rfl
          | some slot => rfl

theorem forget_fill (t : Tagged) (step : Step) (content : Option Tagged) :
    (t.fill step content).forget = t.forget.fill step (content.map forget) := by
  obtain ⟨field, index⟩ := step
  cases index with
  | none =>
      simp only [fill, Node.fill, forget_set]
      cases content <;> rfl
  | some i =>
      simp only [fill, Node.fill, forget_slots?]
      cases t.slots? field with
      | none => rfl
      | some slots => simp only [Option.map_some, forget_set, forgetField, forgetSlots_eq_map, List.map_set]

theorem forget_at? (t : Tagged) (p : Path) : t.forget.at? p = (t.at? p).map forget := by
  induction p generalizing t with
  | nil => rfl
  | cons step rest ih =>
      rw [Node.at?_cons, at?_cons, forget_step?]
      cases t.step? step with
      | none => rfl
      | some child => exact ih child

theorem forget_modifyAt {f : Tagged → Tagged} {g : Node → Node} (h : ∀ t, (f t).forget = g t.forget)
    (t : Tagged) (p : Path) : (t.modifyAt f p).forget = t.forget.modifyAt g p := by
  induction p generalizing t with
  | nil => exact h t
  | cons step rest ih =>
      simp only [modifyAt, Node.modifyAt, forget_step?]
      cases t.step? step with
      | none => rfl
      | some child => simp only [Option.map_some, forget_fill, ih]

theorem forget_detach (t : Tagged) (next : Nat) (p : Path) :
    t.forget.detach p = (t.detach next p).map fun taken => (taken.1.forget, taken.2.forget) := by
  induction p generalizing t with
  | nil => rfl
  | cons step rest ih =>
      cases rest with
      | nil =>
          simp only [Node.detach, detach, forget_step?]
          cases t.step? step with
          | none => rfl
          | some child => simp only [Option.map_some, forget_fill, Option.map_none]
      | cons other rest =>
          simp only [Node.detach, detach, forget_step?]
          cases t.step? step with
          | none => rfl
          | some child =>
              simp only [Option.map_some, Option.bind_eq_bind, Option.bind_some, ih]
              cases child.detach next (other :: rest) with
              | none => rfl
              | some taken => simp only [Option.map_some, Option.bind_some, forget_fill]

theorem forget_attach (t node : Tagged) (p : Path) :
    (t.attach node p).forget = t.forget.attach node.forget p := by
  induction p generalizing t with
  | nil => rfl
  | cons step rest ih =>
      cases rest with
      | nil => simp only [attach, Node.attach, forget_fill, Option.map_some]
      | cons other rest =>
          simp only [attach, Node.attach, forget_step?]
          cases t.step? step with
          | none => rfl
          | some child => simp only [Option.map_some, forget_fill, ih]

/-! ## Counting identities -/

/-- The identities in a node change by those in the slot that is filled. -/
theorem count_fill {t c : Tagged} {step : Step} (h : t.step? step = some c) (content : Option Tagged)
    (i : Nat) :
    (t.fill step content).ids.count i + c.ids.count i
      = t.ids.count i + (idsOfSlot content).count i := by
  obtain ⟨field, index⟩ := step
  cases index with
  | none =>
      have hset := count_set (step?_child_eq_some_iff.mp h) ((content.map Field.child).getD (.value .null)) i
      cases content <;> exact hset
  | some k =>
      obtain ⟨slots, hget, hslot⟩ := step?_slot_eq_some_iff.mp h
      have hset := count_set hget (.list (slots.set k content)) i
      have hslots := count_slots_set hslot content i
      have hchild : idsOfSlot (some c) = c.ids := rfl
      rw [fill_slot hget]
      rw [hchild] at hslots
      simp only [idsOfField] at hset
      omega

theorem count_step?_le {t c : Tagged} {step : Step} (h : t.step? step = some c) (i : Nat) :
    c.ids.count i ≤ t.ids.count i := by
  have hempty : (idsOfSlot none).count i = 0 := rfl
  have hfill := count_fill h none i
  omega

/-- The identities in a tree change by those in the node that is changed. -/
theorem count_modifyAt {t n : Tagged} {p : Path} (h : t.at? p = some n) (f : Tagged → Tagged) (i : Nat) :
    (t.modifyAt f p).ids.count i + n.ids.count i = t.ids.count i + (f n).ids.count i := by
  induction p generalizing t with
  | nil =>
      cases h
      exact Nat.add_comm ..
  | cons step rest ih =>
      obtain ⟨c, hstep, hrest⟩ := Option.bind_eq_some_iff.mp h
      have hbelow := ih hrest
      have hfill := count_fill hstep (some (c.modifyAt f rest)) i
      have hcontent : idsOfSlot (some (c.modifyAt f rest)) = (c.modifyAt f rest).ids := rfl
      rw [hcontent] at hfill
      rw [modifyAt_cons hstep]
      omega

/-! ## One identity, one position -/

theorem mem_ids_self (t : Tagged) : t.id ∈ t.ids := by
  obtain ⟨id, kind, fields⟩ := t
  rw [ids]
  exact List.mem_cons_self ..

theorem mem_ids_of_step? {t c : Tagged} {step : Step} {i : Nat} (h : t.step? step = some c)
    (hi : i ∈ c.ids) : i ∈ t.ids :=
  List.count_pos_iff.mp (Nat.lt_of_lt_of_le (List.count_pos_iff.mpr hi) (count_step?_le h i))

theorem mem_ids_of_at? {t n : Tagged} {p : Path} {i : Nat} (h : t.at? p = some n) (hi : i ∈ n.ids) :
    i ∈ t.ids := by
  induction p generalizing t with
  | nil =>
      cases h
      exact hi
  | cons step rest ih =>
      obtain ⟨c, hstep, hrest⟩ := Option.bind_eq_some_iff.mp h
      exact mem_ids_of_step? hstep (ih hrest)

/-- Different children of a node share no identity. -/
theorem count_steps_le {t c c' : Tagged} {step other : Step} (h : t.step? step = some c)
    (h' : t.step? other = some c') (hne : other ≠ step) (i : Nat) :
    c.ids.count i + c'.ids.count i ≤ t.ids.count i := by
  have hempty : (idsOfSlot none).count i = 0 := rfl
  have hfill := count_fill h none i
  have hother : (t.fill step none).step? other = some c' := by rw [step?_fill_of_ne h hne, h']
  have hle := count_step?_le hother i
  omega

/-- Where identities come up once, the root is in no other node. -/
theorem path_eq_nil {t n : Tagged} {p : Path} (honce : ∀ i, t.ids.count i ≤ 1) (hat : t.at? p = some n)
    (hmem : t.id ∈ n.ids) : p = [] := by
  cases p with
  | nil => rfl
  | cons step rest =>
      obtain ⟨c, hstep, hrest⟩ := Option.bind_eq_some_iff.mp hat
      have hchild : t.id ∈ c.ids := mem_ids_of_at? hrest hmem
      -- The root is there when the child is not.
      have hself : t.id ∈ (t.fill step none).ids := id_fill t step none ▸ mem_ids_self _
      have hempty : (idsOfSlot none).count t.id = 0 := rfl
      have hcount := count_fill hstep none t.id
      have hroot := honce t.id
      have hpos := List.count_pos_iff.mpr hchild
      have hpos' := List.count_pos_iff.mpr hself
      omega

/-- Where identities come up once, a node is found at one position only. -/
theorem path_eq {t n m : Tagged} {p q : Path} (honce : ∀ i, t.ids.count i ≤ 1) (hp : t.at? p = some n)
    (hq : t.at? q = some m) (hid : n.id = m.id) : p = q := by
  induction p generalizing t q with
  | nil =>
      cases hp
      exact (path_eq_nil honce hq (hid ▸ mem_ids_self m)).symm
  | cons step p ih =>
      cases q with
      | nil =>
          cases hq
          exact path_eq_nil honce hp (hid ▸ mem_ids_self n)
      | cons other q =>
          obtain ⟨c, hstep, hbelow⟩ := Option.bind_eq_some_iff.mp hp
          obtain ⟨c', hother, hbelow'⟩ := Option.bind_eq_some_iff.mp hq
          by_cases hne : other = step
          · subst hne
            cases Option.some.inj (hstep.symm.trans hother)
            have honce' : ∀ i, c.ids.count i ≤ 1 := fun i =>
              Nat.le_trans (count_step?_le hstep i) (honce i)
            rw [ih honce' hbelow hbelow']
          · have hcount := count_steps_le hstep hother hne n.id
            have hpos := List.count_pos_iff.mpr (mem_ids_of_at? hbelow (mem_ids_self n))
            have hpos' := List.count_pos_iff.mpr (mem_ids_of_at? hbelow' (hid ▸ mem_ids_self m))
            have := honce n.id
            omega

end Minifier.Tagged
