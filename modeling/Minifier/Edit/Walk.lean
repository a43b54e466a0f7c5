import Minifier.Edit.Cursor

/-!
# Editing a tree while walking over it

`Visitor.walk` visits the positions of a tree in the order of `Node.occurrences`, calls the visitor at
each, and carries out what it decides:

* A position that was removed or spliced is done with; its hook is dropped.
* A node that was put in the place of another is not visited.
* Otherwise the walk goes through the fields that the kind of the node, as the visitor left it,
  lists. The slots of a list keep their indices until the whole list has been visited; then the list
  is rebuilt once.
* Last, the hook of the position is called, once, and its decision counts.

If a visitor fails, the walk stops there. The node is back in its slot, decisions that were already
carried out remain, and the lists above stay as they are.

The walk descends at most `levels` levels, and ends as `tooDeep` where it would have to go further. A
visitor can add nodes below the position that it is at, so that no bound follows from the tree alone;
for a visitor that adds no levels, the size of the tree is enough.
-/

namespace Minifier

/-- A visitor: what it does on meeting a position, and what its hooks do on leaving it. -/
structure Visitor (σ η : Type) where
  enter : Action σ η Unit
  leave : η → Action σ η Unit

/-- The fate of a position when the walk is done with it. -/
inductive Settled where
  | keep
  | remove
  | flatten (nodes : List Node)

/-- The fate that a visitor's decision means. -/
def Outcome.settle : Outcome → Settled
  | .kept | .replaced => .keep
  | .removed => .remove
  | .spliced nodes => .flatten nodes

/-- The position stays as it is. -/
def Settled.isKeep : Settled → Bool
  | .keep => true
  | _ => false

/-- What becomes of a slot. -/
def Settled.slots (slot : Option Node) : Settled → List (Option Node)
  | .keep => [slot]
  | .remove => []
  | .flatten nodes => nodes.map some

/-- Rebuild a list of slots once the fate of each is known. -/
def compactSlots (slots : List (Option Node)) (settled : List Settled) : List (Option Node) :=
  (slots.zip settled).flatMap fun (slot, fate) => fate.slots slot

/-- Why a walk stops before its end. -/
inductive Stop where
  /-- the visitor failed, or an edit that it asked for cannot be made -/
  | failed (error : Error)
  /-- there are more levels than the walk was to descend -/
  | tooDeep
deriving DecidableEq, Repr

/-- A walk works on a tree and on the visitor's state. -/
abbrev Walk (σ : Type) := EStateM Stop (Node × σ)

namespace Walk

variable {σ η : Type}

/-- The node at a position of the tree. -/
def nodeAt (path : Path) : Walk σ Node := do
  match (← get).1.at? path with
  | some node => pure node
  | none => throw (.failed (.edit .lostPosition))

/-- Change the node at a position of the tree. -/
def updateAt (path : Path) (f : Node → Node) : Walk σ Unit :=
  modify fun (root, s) => (root.modifyAt f path, s)

/-- Take the node at a position out, let a visitor act on it, and put it back. -/
def act (path : Path) (action : Action σ η Unit) : Walk σ (Outcome × Option η) := fun (root, s) =>
  match root.detach path with
  | none => .error (.failed (.edit .lostPosition)) (root, s)
  | some (node, rest) =>
    match action ({ root := rest, path, node }, s) with
    | .ok _ (c, s) => .ok (c.outcome, c.hook) (rest.attach c.node path, s)
    | .error error (c, s) => .error (.failed error) (rest.attach c.node path, s)

/-- Visit the child in a field. -/
def single (below : Path → Walk σ Settled) (path : Path) (field : String) : Walk σ Unit := do
  match ← below (path ++ [⟨field, none⟩]) with
  | .keep => pure ()
  | .remove => updateAt path (·.erase field)
  | .flatten _ => throw (.failed (.edit (.spliceIntoField field)))

/-- Visit the slots of a list from index `i` on; `occupied` tells which of them hold a node. -/
def slots (below : Path → Walk σ Settled) (path : Path) (field : String) (i : Nat) :
    List Bool → Walk σ (List Settled)
  | [] => pure []
  | occupied :: rest => do
    let fate ← if occupied then below (path ++ [⟨field, some i⟩]) else pure .keep
    let fates ← slots below path field (i + 1) rest
    pure (fate :: fates)

/-- Visit the slots of a list and rebuild it. -/
def list (below : Path → Walk σ Settled) (path : Path) (field : String)
    (occupied : List Bool) : Walk σ Unit := do
  let fates ← slots below path field 0 occupied
  unless fates.all Settled.isKeep do
    match (← nodeAt path).slots? field with
    | some slots => updateAt path (·.set field (.list (compactSlots slots fates)))
    | none => throw (.failed (.edit .lostPosition))

/-- Visit what a field holds. -/
def field (below : Path → Walk σ Settled) (path : Path) (name : String) : Walk σ Unit := do
  match (← nodeAt path).get? name with
  | some (.child _) => single below path name
  | some (.list slots) => list below path name (slots.map Option.isSome)
  | _ => pure ()

/-- Visit what is below a position. -/
def children (below : Path → Walk σ Settled) (path : Path) : Walk σ Unit := do
  (← nodeAt path).kind.fields.forM (field below path)

end Walk

/-- What a walk made of a tree and of the visitor's state, and what stopped it, if anything did. -/
structure Walked (σ : Type) where
  tree : Node
  state : σ
  stop : Option Stop

/-- The error that stopped a walk, if one did. -/
def Walked.error {σ : Type} (w : Walked σ) : Option Error :=
  match w.stop with
  | some (.failed error) => some error
  | _ => none

namespace Visitor

variable {σ η : Type}

/-- Visit a position and, at most `levels` levels deep, what is below it. -/
def walk (v : Visitor σ η) : Nat → Path → Walk σ Settled
  | 0, _ => throw .tooDeep
  | levels + 1, path => do
    let (outcome, hook) ← Walk.act path v.enter
    match outcome with
    | .removed => pure .remove
    | .spliced nodes => pure (.flatten nodes)
    | .kept =>
      Walk.children (v.walk levels) path
      finish path hook
    | .replaced => finish path hook
where
  /-- Call the hook of a position, if it has one. -/
  finish (path : Path) : Option η → Walk σ Settled
    | none => pure .keep
    | some hook => do
      let (outcome, _) ← Walk.act path (v.leave hook)
      pure outcome.settle

/-- Walk over a tree. -/
def run (v : Visitor σ η) (levels : Nat) (tree : Node) (state : σ) : Walked σ :=
  match v.walk levels [] (tree, state) with
  | .ok _ (tree, state) => ⟨tree, state, none⟩
  | .error stop (tree, state) => ⟨tree, state, some stop⟩

end Visitor

end Minifier
