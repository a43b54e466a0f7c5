import Minifier.Proofs.Optimize.Turn

/-!
# How the optimizer comes to a node

What the optimizer makes of a node depends on the tree around it as it is at that moment: names may be bound there, and
the slots before it are done. `Enters` is the one step down from a node to a node in one of its fields, and
`Meets t around c` says that in the tree `t` the optimizer comes to the node `c` and has `around` around it. In a turn
at a node it enters all that it makes something of (`Turn.enters`).
-/

namespace Minifier.Optimize

open Node

/-! ## One step down -/

/-- Of the slots of a list those are `done` that stand before the `rest`. -/
inductive SlotsDone (around : Surroundings) (n : Node) (name : String) (slots : List (Option Node)) :
    List (Option Node) → List (Option Node) → Prop where
  | start : SlotsDone around n name slots [] slots
  | hole {done rest} : SlotsDone around n name slots done (none :: rest) →
      SlotsDone around n name slots (done ++ [none]) rest
  | node {done rest} {c : Node} {x : Settled × Node} : SlotsDone around n name slots done (some c :: rest) →
      Makes (slotFrame n name done rest :: around) c x → SlotsDone around n name slots (done ++ [some x.2]) rest

/-- The node is neither folded nor dropped, and `m` is what it is when its fields before this one are swept. -/
structure SweptTo (around : Surroundings) (n : Node) (name : String) (m : Node) : Prop where
  unfolded : foldedBy (valueIn? around) n = none
  kept : ¬ ((spotOf around).prologue = true ∧ directive? n = some "use strict")
  fields : ∃ first second, n.kind.fields = first ++ name :: second ∧
    FieldsLeft Makes around first (shorten n) m

/-- From a node the optimizer comes to one in a field, with the node around it. -/
inductive Enters (around : Surroundings) (n : Node) : Surroundings → Node → Prop where
  | child {name} {m c : Node} : SweptTo around n name m → m.get? name = some (.child c) →
      Enters around n (fieldFrame m name :: around) c
  | slot {name slots done rest} {m c : Node} : SweptTo around n name m → m.get? name = some (.list slots) →
      SlotsDone around m name slots done (some c :: rest) → Enters around n (slotFrame m name done rest :: around) c

variable {around : Surroundings} {n m r : Node} {x : Settled × Node} {name : String} {first second names : List String}
  {P : Surroundings → Node → Settled × Node → Prop} {prologue : Bool} {slots done rest pieces : List (Option Node)}
  {old new : Field Node}

/-- The fields are swept one after the other. -/
theorem FieldsLeft.append (h : FieldsLeft P around first n m) (h' : FieldsLeft P around second m r) :
    FieldsLeft P around (first ++ second) n r := by
  induction h with
  | nil => exact h'
  | absent hget _ ih => exact .absent hget (ih h')
  | field hget hcontent _ ih => exact .field hget hcontent (ih h')

theorem SlotsLeft.enters (hP : ∀ {a c y}, P a c y → Makes a c y) (hswept : SweptTo around n name m)
    (hget : m.get? name = some (.list slots)) (hdone : SlotsDone around m name slots done rest)
    (h : SlotsLeft P around m name prologue done rest pieces) :
    SlotsLeft (fun a c y => P a c y ∧ Enters around n a c) around m name prologue done rest pieces := by
  induction h with
  | nil => exact .nil
  | hole _ ih => exact .hole (ih hdone.hole)
  | node hspot hx _ ih => exact .node hspot ⟨hx, .slot hswept hget hdone⟩ (ih (hdone.node (hP hx)))

theorem ContentLeft.enters (hP : ∀ {a c y}, P a c y → Makes a c y) (hswept : SweptTo around n name m)
    (hget : m.get? name = some old) (h : ContentLeft P around m name old new) :
    ContentLeft (fun a c y => P a c y ∧ Enters around n a c) around m name old new := by
  cases h with
  | value json => exact .value json
  | child hm => exact .child ⟨hm, .child hswept hget⟩
  | list hslots => exact .list (hslots.enters hP hswept hget .start)

theorem FieldsLeft.enters (hP : ∀ {a c y}, P a c y → Makes a c y)
    (hunfolded : foldedBy (valueIn? around) n = none)
    (hkept : ¬ ((spotOf around).prologue = true ∧ directive? n = some "use strict"))
    (hfields : n.kind.fields = first ++ names) (h : FieldsLeft P around names m r)
    (hfirst : FieldsLeft Makes around first (shorten n) m) :
    FieldsLeft (fun a c y => P a c y ∧ Enters around n a c) around names m r := by
  -- The fields that are swept move over to the first.
  induction h generalizing first with
  | nil => exact .nil
  | absent hget _ ih =>
      exact .absent hget (ih (by simpa using hfields) (hfirst.append (.absent hget .nil)))
  | field hget hcontent _ ih =>
      have hmakes := hcontent.mono (Q := Makes) hget fun _ _ hy => hP hy
      have hswept : SweptTo around n _ _ := ⟨hunfolded, hkept, first, _, hfields, hfirst⟩
      exact .field hget (hcontent.enters hP hswept hget)
        (ih (by simpa using hfields) (hfirst.append (.field hget hmakes .nil)))

/-- **In a turn the optimizer enters all that it makes something of.** -/
theorem Turn.enters (hP : ∀ {a c y}, P a c y → Makes a c y) (h : Turn P around n x) :
    Turn (fun a c y => P a c y ∧ Enters around n a c) around n x := by
  cases h with
  | folded hfolded => exact .folded hfolded
  | dropped hprologue hdirective => exact .dropped hprologue hdirective
  | swept hunfolded hkept hfields =>
      exact .swept hunfolded hkept (hfields.enters hP hunfolded hkept (List.nil_append _).symm .nil)

/-! ## From the root -/

/-- In the tree the optimizer comes to a node, and has these surroundings then. -/
inductive Meets (t : Node) : Surroundings → Node → Prop where
  | root : Meets t [] t
  | step {around a} {n c : Node} : Meets t around n → Enters around n a c → Meets t a c

/-- The optimizer comes to an occurrence in the tree. -/
structure ComesTo (t : Node) (around : Surroundings) (o : Occurrence) : Prop where
  path_eq : around.path = o.path
  meets : Meets t around o.node

/-- **Induction on what the optimizer does in a tree.** -/
theorem Makes.induction_of_meets {t : Node}
    (turn : ∀ {around n x}, Makes around n x → Meets t around n →
      Turn (fun a c y => Makes a c y ∧ Meets t a c ∧ P a c y) around n x → P around n x)
    (h : Makes around n x) (hmeets : Meets t around n) : P around n x := by
  revert hmeets
  refine Makes.induction (P := fun a c y => Makes a c y → Meets t a c → P a c y) ?_ h h
  intro around n x _ hturn hmakes hmeets
  apply turn hmakes hmeets
  apply (hturn.enters fun hy => hy.1).mono
  intro a c y hy
  have hbelow := hmeets.step hy.2
  exact ⟨hy.1.1, hbelow, hy.1.2 hy.1.1 hbelow⟩

end Minifier.Optimize
