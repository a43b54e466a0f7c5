import Minifier.Tree.Node

/-!
# Positions in a tree

A position is the path that leads to it from the root: at each step the name of a field and, if the
field holds a list, the index of the slot. Positions are how the passes tell nodes apart; two equal
nodes at different positions are different nodes.

* `Node.at?` reads the node at a position.
* `Node.detach` takes it out and leaves an empty slot (null, or a hole in a list), and `Node.attach`
  puts a node into a slot. A visitor works between the two.
* `Node.ancestors` lists what lies above a position, nearest first.
-/

namespace Minifier

/-- One step down: through a field, and to a slot if the field holds a list. -/
structure Step where
  field : String
  index : Option Nat
deriving DecidableEq, Repr

/-- The steps from the root of a tree to a node. -/
abbrev Path := List Step

/-- A node above a position: where it stands, what it is, and the step taken from it. -/
structure Ancestor where
  path : Path
  node : Node
  step : Step

/-- The kind of the ancestor. -/
def Ancestor.kind (a : Ancestor) : Kind := a.node.kind

/-- The field of the ancestor that leads down to the position. -/
def Ancestor.field (a : Ancestor) : String := a.step.field

namespace Node

/-! ### One step -/

/-- The node one step down. -/
def step? (n : Node) (step : Step) : Option Node :=
  match step.index with
  | none => n.child? step.field
  | some i => (n.slots? step.field).bind fun slots => slots[i]?.join

/-- Fill the slot one step down, or empty it. Only slots that a list has can be filled. -/
def fill (n : Node) (step : Step) (content : Option Node) : Node :=
  match step.index with
  | none => n.set step.field ((content.map Field.child).getD (.value .null))
  | some i =>
    match n.slots? step.field with
    | some slots => n.set step.field (.list (slots.set i content))
    | none => n

/-- The nodes one step down through a field. -/
def edges (n : Node) (field : String) : List (Step × Node) :=
  match n.get? field with
  | some (.child node) => [(⟨field, none⟩, node)]
  | some (.list slots) =>
    slots.zipIdx.filterMap fun (slot, i) => slot.map fun node => (⟨field, some i⟩, node)
  | _ => []

/-- The nodes one step down through the fields that a traversal follows. -/
def visited (n : Node) : List (Step × Node) := n.kind.fields.flatMap n.edges

theorem size_edges_lt {n : Node} {field : String} {edge : Step × Node}
    (h : edge ∈ n.edges field) : edge.2.size < n.size := by
  unfold edges at h
  split at h
  · rename_i node hget
    have := sizeOfField_lt_of_get? hget
    simp_all [sizeOfField]
  · rename_i slots hget
    have hlt := sizeOfField_lt_of_get? hget
    simp only [List.mem_filterMap] at h
    obtain ⟨⟨slot, i⟩, hmem, hslot⟩ := h
    cases slot with
    | none => simp at hslot
    | some node =>
      have hin : some node ∈ slots := List.fst_mem_of_mem_zipIdx hmem
      have := size_le_of_mem_slots hin
      simp only [sizeOfField] at hlt
      simp only [Option.map_some, Option.some.injEq] at hslot
      subst hslot
      show node.size < n.size
      omega
  · simp at h

theorem size_visited_lt {n : Node} {edge : Step × Node} (h : edge ∈ n.visited) :
    edge.2.size < n.size := by
  obtain ⟨field, _, hedge⟩ := List.mem_flatMap.mp h
  exact size_edges_lt hedge

/-! ### Whole paths -/

/-- The node at a position. -/
def at? (n : Node) : Path → Option Node
  | [] => some n
  | step :: rest => (n.step? step).bind (·.at? rest)

/-- Change the node at a position, if there is one. -/
def modifyAt (n : Node) (f : Node → Node) : Path → Node
  | [] => f n
  | step :: rest =>
    match n.step? step with
    | some child => n.fill step (some (child.modifyAt f rest))
    | none => n

/-- What stands in for the root while it is taken out. -/
def placeholder : Node := ⟨.other "", []⟩

/-- Take out the node at a position: the node, and the tree with the slot empty. -/
def detach (n : Node) : Path → Option (Node × Node)
  | [] => some (n, placeholder)
  | [step] => (n.step? step).map fun child => (child, n.fill step none)
  | step :: rest => do
    let child ← n.step? step
    let (taken, left) ← child.detach rest
    some (taken, n.fill step (some left))

/-- Put a node into the slot at a position. -/
def attach (n : Node) (node : Node) : Path → Node
  | [] => node
  | [step] => n.fill step (some node)
  | step :: rest =>
    match n.step? step with
    | some child => n.fill step (some (child.attach node rest))
    | none => n

/-- What lies above a position, nearest first, before what is already known to lie above `here`. A
path that leaves the tree is followed as far as it goes. -/
def ancestorsFrom (n : Node) (here : Path) (above : List Ancestor) : Path → List Ancestor
  | [] => above
  | step :: rest =>
    let above := ⟨here, n, step⟩ :: above
    match n.step? step with
    | some child => child.ancestorsFrom (here ++ [step]) above rest
    | none => above

/-- What lies above a position, nearest first. -/
def ancestors (n : Node) (path : Path) : List Ancestor := n.ancestorsFrom [] [] path

@[simp] theorem at?_nil (n : Node) : n.at? [] = some n := rfl

@[simp] theorem at?_cons (n : Node) (step : Step) (rest : Path) :
    n.at? (step :: rest) = (n.step? step).bind (·.at? rest) := rfl

/-- Following one path and then another is following both. -/
theorem at?_append (n : Node) (p q : Path) : n.at? (p ++ q) = (n.at? p).bind (·.at? q) := by
  induction p generalizing n with
  | nil => rfl
  | cons step rest ih =>
    simp only [List.cons_append, at?_cons, Option.bind_assoc]
    congr 1
    funext child
    exact ih child

/-! ### Taking out and putting back -/

/-- A step to a slot of a list leads to a node iff the list has one there. -/
theorem step?_slot_eq_some_iff {n c : Node} {field : String} {i : Nat} :
    n.step? ⟨field, some i⟩ = some c ↔
      ∃ slots, n.get? field = some (.list slots) ∧ slots[i]? = some (some c) := by
  simp [step?, slots?_eq_some_iff, Option.bind_eq_some_iff, Option.join_eq_some_iff]

/-- A slot that is filled or emptied twice has its last content. -/
@[simp] theorem fill_fill (n : Node) (step : Step) (first second : Option Node) :
    (n.fill step first).fill step second = n.fill step second := by
  obtain ⟨field, index⟩ := step
  cases index with
  | none => simp [fill]
  | some i =>
    cases hslots : n.slots? field with
    | none => simp only [fill, hslots]
    | some slots =>
      have hset : (n.set field (.list (slots.set i first))).slots? field
          = some (slots.set i first) := slots?_eq_some_iff.mpr (get?_set_self ..)
      simp only [fill, hslots, hset, set_set, List.set_set]

/-- Filling a slot with what it holds changes nothing. -/
theorem fill_eq_self {n c : Node} {step : Step} (h : n.step? step = some c) :
    n.fill step (some c) = n := by
  obtain ⟨field, index⟩ := step
  cases index with
  | none => exact set_eq_self (child?_eq_some_iff.mp h)
  | some i =>
    obtain ⟨slots, hget, hslot⟩ := step?_slot_eq_some_iff.mp h
    obtain ⟨hlt, hitem⟩ := List.getElem?_eq_some_iff.mp hslot
    have hslots := slots?_eq_some_iff.mpr hget
    simp only [fill, hslots, ← hitem, List.set_getElem_self]
    exact set_eq_self hget

/-- A slot that held a node and is filled holds what it was filled with. -/
theorem step?_fill {n c : Node} {step : Step} (h : n.step? step = some c) (node : Node) :
    (n.fill step (some node)).step? step = some node := by
  obtain ⟨field, index⟩ := step
  cases index with
  | none => exact child?_eq_some_iff.mpr (get?_set_self ..)
  | some i =>
    obtain ⟨slots, hget, hslot⟩ := step?_slot_eq_some_iff.mp h
    obtain ⟨hlt, _⟩ := List.getElem?_eq_some_iff.mp hslot
    have hslots := slots?_eq_some_iff.mpr hget
    refine step?_slot_eq_some_iff.mpr ⟨slots.set i (some node), ?_, by simp [hlt]⟩
    simp only [fill, hslots, get?_set_self]

/-- A node that is taken out and put back leaves the tree as it was. -/
theorem attach_detach {n node left : Node} {path : Path}
    (h : n.detach path = some (node, left)) : left.attach node path = n := by
  induction path generalizing n left with
  | nil =>
    simp only [detach, Option.some.injEq, Prod.mk.injEq] at h
    exact h.1.symm
  | cons step rest ih =>
    cases rest with
    | nil =>
      obtain ⟨child, hstep, hpair⟩ := Option.map_eq_some_iff.mp h
      cases hpair
      simp only [attach, fill_fill]
      exact fill_eq_self hstep
    | cons next rest =>
      obtain ⟨child, hstep, hrest⟩ := Option.bind_eq_some_iff.mp h
      obtain ⟨⟨taken, below⟩, hdetach, hpair⟩ := Option.bind_eq_some_iff.mp hrest
      cases hpair
      simp only [attach, step?_fill hstep, ih hdetach, fill_fill]
      exact fill_eq_self hstep

end Node

end Minifier
