import Minifier.Edit.Patch
import Minifier.Tree.Path

/-!
# Cursors

A visitor meets each node through a cursor. The cursor holds the node itself, which may be edited
freely, and shows the rest of the tree, where the node's own slot is empty meanwhile. The verbs
`replace`, `replaceWithMany` and `remove` decide on the fate of the position. The last one called
wins, and the walk carries it out when the visitor is done.

A visitor may leave a *hook* behind (`onLeave`), to be called when everything below the position
has been visited. A hook is a value of the visitor's own type `η`, which tells what is to be
done.
-/

namespace Minifier

/-- What a visitor decided for a position. -/
inductive Outcome where
  | kept
  /-- the node was replaced; what replaces it is not visited -/
  | replaced
  | removed
  /-- several nodes take the place of one in a list -/
  | spliced (nodes : List Node)

/-- A visitor's view of a position. -/
structure Cursor (η : Type) where
  /-- the tree, with the slot of the position empty -/
  root : Node
  path : Path
  /-- the node of the position -/
  node : Node
  outcome : Outcome := .kept
  hook : Option η := none

namespace Cursor

variable {η : Type}

/-- The position is the root, which stands in no slot. -/
def isRoot (c : Cursor η) : Bool := c.path.isEmpty

/-- The number of steps from the root. -/
def depth (c : Cursor η) : Nat := c.path.length

/-- The field of the parent that holds the position. -/
def field? (c : Cursor η) : Option String := c.path.getLast?.map (·.field)

/-- The slot of a list that holds the position. -/
def index? (c : Cursor η) : Option Nat := c.path.getLast?.bind (·.index)

/-- What lies above the position, nearest first. -/
def ancestors (c : Cursor η) : List Ancestor := c.root.ancestors c.path

/-- The node above the position. -/
def parent? (c : Cursor η) : Option Node := c.ancestors.head?.map (·.node)

/-- The position is to be removed. -/
def isRemoved (c : Cursor η) : Bool :=
  match c.outcome with
  | .removed => true
  | _ => false

end Cursor

/-- What a visitor does at a position: it works on the cursor and on a state `σ` of its own, and it may
fail. What it did before it failed stays done. -/
abbrev Action (σ η : Type) := EStateM Error (Cursor η × σ)

namespace Action

variable {σ η : Type}

/-- The cursor. -/
def cursor : Action σ η (Cursor η) := return (← get).1

/-- The node of the position. -/
def node : Action σ η Node := return (← get).1.node

/-- The visitor's state. -/
def state : Action σ η σ := return (← get).2

/-- Change the cursor. -/
def updateCursor (f : Cursor η → Cursor η) : Action σ η Unit := modify fun (c, s) => (f c, s)

/-- Change the visitor's state. -/
def updateState (f : σ → σ) : Action σ η Unit := modify fun (c, s) => (c, f s)

/-- Change the node of the position. -/
def updateNode (f : Node → Node) : Action σ η Unit :=
  updateCursor fun c => { c with node := f c.node }

/-- Put another node in the place of this one. It will not be visited. -/
def replace (node : Node) : Action σ η Unit := do
  if (← cursor).isRoot then throw (.edit .replaceRoot)
  updateCursor fun c => { c with node, outcome := .replaced }

/-- Put several nodes in the place of this one; only a list has room for them. -/
def replaceWithMany (nodes : List Node) : Action σ η Unit := do
  if (← cursor).index?.isNone then throw (.edit (.spliceOutsideList nodes.length))
  updateCursor fun c => { c with outcome := .spliced nodes }

/-- Take the node out: its slot out of a list, or its field out of the parent. -/
def remove : Action σ η Unit := do
  if (← cursor).isRoot then throw (.edit .removeRoot)
  updateCursor fun c => { c with outcome := .removed }

/-- Merge a patch into the node. -/
def patch (deep : Bool) (json : Json) : Action σ η Unit := do
  let made := Patch.apply deep (← node) json
  updateNode fun _ => made.result
  if let some error := made.error then throw error

/-- Leave a hook, in the place of any earlier one. -/
def onLeave (hook : η) : Action σ η Unit := updateCursor fun c => { c with hook := some hook }

end Action

end Minifier
