import Minifier.Proofs.Edit.Sweep
import Minifier.Proofs.Identity.Script

/-!
# Walks over trees with identities

`Visitor.run` takes a visitor over a tree with identities, in the steps of the walk without: the node of a
position is taken out, the visitor acts on it and on the trees at hand, and the node is put back. While the
root is taken out, a node of its own stands in for it, and that one has an identity too. The walk notes the
calls of the visitor.

If the scripts of a visitor do what the actions of another one do without identities, then so do the walks
(`forget_run`). What is shown of identities is so shown of the walk that runs.
-/

namespace Minifier.Tagged

variable {σ τ η α β α' β' : Type}

/-- The fate of a position when the walk is done with it. -/
inductive Settled where
  | keep
  | remove
  | flatten (trees : List Tagged)

/-- The fate that a visitor's decision means. -/
def Outcome.settle : Outcome → Settled
  | .kept | .replaced => .keep
  | .removed => .remove
  | .spliced trees => .flatten trees

namespace Settled

/-- The position stays as it is. -/
def isKeep : Settled → Bool
  | .keep => true
  | _ => false

/-- What becomes of a slot. -/
def slots (slot : Option Tagged) : Settled → List (Option Tagged)
  | .keep => [slot]
  | .remove => []
  | .flatten trees => trees.map some

def forget : Settled → Minifier.Settled
  | .keep => .keep
  | .remove => .remove
  | .flatten trees => .flatten (trees.map Tagged.forget)

end Settled

/-- Rebuild a list of slots once the fate of each is known. -/
def compactSlots (slots : List (Option Tagged)) (settled : List Settled) : List (Option Tagged) :=
  (slots.zip settled).flatMap fun (slot, fate) => fate.slots slot

/-- A call of a visitor. -/
structure Call where
  /-- the node that the visitor met -/
  given : Tagged
  /-- the node as the visitor left it -/
  left : Tagged
  outcome : Outcome
  edited : Bool
  exchanged : Bool

/-- A walk works on a tree, on the visitor's state and on the trees at hand, and notes its calls. -/
structure Site (σ : Type) where
  tree : Tagged
  state : σ
  forest : Forest
  calls : List Call

abbrev Walk (σ : Type) := EStateM Stop (Site σ)

namespace Walk

/-- The node at a position of the tree. -/
def nodeAt (path : Path) : Walk σ Tagged := fun site =>
  match site.tree.at? path with
  | some node => .ok node site
  | none => .error (.failed (.edit .lostPosition)) site

/-- Change the node at a position of the tree. -/
def updateAt (path : Path) (f : Tagged → Tagged) : Walk σ Unit := fun site =>
  .ok () { site with tree := site.tree.modifyAt f path }

/-- The trees at hand once a node is taken out. For the root, the node that stands in for it has been made. -/
def standIn (forest : Forest) (path : Path) : Forest :=
  if path.isEmpty then { forest with next := forest.next + 1 } else forest

/-- Put the node of a scene back into the tree that the given one was taken out of, and note the call. -/
def putBack (site : Site σ) (path : Path) (given left : Tagged) : Scene σ η → Site σ
  | (c, state, forest) =>
    ⟨left.attach c.node path, state, forest,
      ⟨given, c.node, c.outcome, c.edited, c.exchanged⟩ :: site.calls⟩

/-- Take the node at a position out, let a visitor act on it, and put it back. -/
def act (path : Path) (script : Script σ η) : Walk σ (Outcome × Option η) := fun site =>
  match site.tree.detach site.forest.next path with
  | none => .error (.failed (.edit .lostPosition)) site
  | some (node, left) =>
    match script.play ({ root := left, path, node }, site.state, standIn site.forest path) with
    | (none, scene) => .ok (scene.1.outcome, scene.1.hook) (putBack site path node left scene)
    | (some error, scene) => .error (.failed error) (putBack site path node left scene)

/-- Carry out the fate of the child in a field. -/
def settle (path : Path) (field : String) : Settled → Walk σ Unit
  | .keep => pure ()
  | .remove => updateAt path (·.erase field)
  | .flatten _ => throw (.failed (.edit (.spliceIntoField field)))

/-- Visit the child in a field. -/
def single (below : Path → Walk σ Settled) (path : Path) (field : String) : Walk σ Unit := do
  settle path field (← below (path ++ [⟨field, none⟩]))

/-- Visit the slots of a list from index `i` on; `occupied` tells which of them hold a node. -/
def slots (below : Path → Walk σ Settled) (path : Path) (field : String) (i : Nat) :
    List Bool → Walk σ (List Settled)
  | [] => pure []
  | occupied :: rest => do
    let fate ← if occupied then below (path ++ [⟨field, some i⟩]) else pure .keep
    let fates ← slots below path field (i + 1) rest
    pure (fate :: fates)

/-- Rebuild a list whose slots have been visited, unless all of them stay. -/
def rebuild (path : Path) (field : String) (fates : List Settled) : Walk σ Unit :=
  if fates.all Settled.isKeep then pure ()
  else do
    match (← nodeAt path).slots? field with
    | some slots => updateAt path (·.set field (.list (compactSlots slots fates)))
    | none => throw (.failed (.edit .lostPosition))

/-- Visit the slots of a list and rebuild it. -/
def list (below : Path → Walk σ Settled) (path : Path) (field : String)
    (occupied : List Bool) : Walk σ Unit := do
  rebuild path field (← slots below path field 0 occupied)

/-- Visit what a field holds. -/
def field (below : Path → Walk σ Settled) (path : Path) (name : String) : Walk σ Unit := do
  match (← nodeAt path).get? name with
  | some (.child _) => single below path name
  | some (.list slots) => list below path name (slots.map Option.isSome)
  | _ => pure ()

/-- Visit what is below a position. -/
def children (below : Path → Walk σ Settled) (path : Path) : Walk σ Unit := do
  (← nodeAt path).kind.fields.forM (field below path)

end Walk

/-- What a walk leaves, and what stopped it, if anything did. -/
structure Walked (σ : Type) where
  site : Site σ
  stop : Option Stop

namespace Visitor

/-- Call the hook of a position, if it has one. -/
def finish (v : Visitor σ η) (path : Path) : Option η → Walk σ Settled
  | none => pure .keep
  | some hook => do
    let (outcome, _) ← Walk.act path (v.leave hook)
    pure outcome.settle

/-- What follows on entering a position. -/
def follow (v : Visitor σ η) (below : Path → Walk σ Settled) (path : Path) :
    Outcome × Option η → Walk σ Settled
  | (.removed, _) => pure .remove
  | (.spliced trees, _) => pure (.flatten trees)
  | (.kept, hook) => do
    Walk.children below path
    v.finish path hook
  | (.replaced, hook) => v.finish path hook

/-- Visit a position and, at most `levels` levels deep, what is below it. -/
def walk (v : Visitor σ η) : Nat → Path → Walk σ Settled
  | 0, _ => throw .tooDeep
  | levels + 1, path => do
    v.follow (v.walk levels) path (← Walk.act path v.enter)

/-- Walk over a tree. -/
def run (v : Visitor σ η) (levels : Nat) (tree : Tagged) (state : σ) (forest : Forest) : Walked σ :=
  match v.walk levels [] ⟨tree, state, forest, []⟩ with
  | .ok _ site => ⟨site, none⟩
  | .error stop site => ⟨site, some stop⟩

end Visitor

theorem Walk.nodeAt_bind (path : Path) (next : Tagged → Walk σ α) (site : Site σ) :
    (Walk.nodeAt path >>= next) site = match site.tree.at? path with
      | some n => next n site
      | none => .error (.failed (.edit .lostPosition)) site := by
  show EStateM.bind (Walk.nodeAt path) next site = _
  unfold EStateM.bind Walk.nodeAt
  cases site.tree.at? path <;> rfl

/-! ## Without identities -/

theorem Outcome.forget_settle (outcome : Outcome) : outcome.settle.forget = outcome.forget.settle := by
  cases outcome <;> rfl

theorem Settled.isKeep_forget (fate : Settled) : fate.forget.isKeep = fate.isKeep := by
  cases fate <;> rfl

theorem Settled.forget_slots (fate : Settled) (slot : Option Tagged) :
    forgetSlots (fate.slots slot) = fate.forget.slots (slot.map Tagged.forget) := by
  cases fate with
  | keep => simp [slots, forget, Minifier.Settled.slots, forgetSlots_eq_map]
  | remove => rfl
  | flatten trees => simp [slots, forget, Minifier.Settled.slots, forgetSlots_eq_map]

theorem forget_compactSlots (slots : List (Option Tagged)) (fates : List Settled) :
    forgetSlots (compactSlots slots fates)
      = Minifier.compactSlots (forgetSlots slots) (fates.map Settled.forget) := by
  induction slots generalizing fates with
  | nil => rfl
  | cons slot slots ih =>
      cases fates with
      | nil => simp [compactSlots, Minifier.compactSlots, forgetSlots]
      | cons fate fates =>
          have hslot := fate.forget_slots slot
          have hrest := ih fates
          simp only [compactSlots, Minifier.compactSlots, forgetSlots_eq_map] at hslot hrest ⊢
          simp only [List.map_cons, List.zip_cons_cons, List.flatMap_cons, List.map_append, hslot, hrest]

namespace Site

/-- The site without identities, and with what the other visitor sees of the rest. -/
def forget (view : σ → List Tagged → τ) (site : Site σ) : Node × τ :=
  (site.tree.forget, view site.state site.forest.trees)

end Site

namespace Walk

/-- The result of a walk without identities. -/
def forgetResult (view : σ → List Tagged → τ) (out : α → α') :
    EStateM.Result Stop (Site σ) α → EStateM.Result Stop (Node × τ) α'
  | .ok a site => .ok (out a) (site.forget view)
  | .error stop site => .error stop (site.forget view)

/-- The walk does, on trees with identities, what the other one does on trees without. -/
def Erases (view : σ → List Tagged → τ) (out : α → α') (w : Walk σ α) (plain : Minifier.Walk τ α') : Prop :=
  ∀ site, plain (site.forget view) = forgetResult view out (w site)

variable {view : σ → List Tagged → τ}

theorem Erases.pure (out : α → α') (a : α) : Erases view out (pure a) (pure (out a)) := fun _ => rfl

theorem Erases.throw (out : α → α') (stop : Stop) : Erases view out (throw stop) (throw stop) :=
  fun _ => rfl

theorem Erases.bind {out : α → α'} {out' : β → β'} {w : Walk σ α} {plain : Minifier.Walk τ α'}
    {next : α → Walk σ β} {next' : α' → Minifier.Walk τ β'} (h : Erases view out w plain)
    (hnext : ∀ a, Erases view out' (next a) (next' (out a))) :
    Erases view out' (w >>= next) (plain >>= next') := by
  intro site
  show EStateM.bind plain next' _ = forgetResult view out' (EStateM.bind w next _)
  simp only [EStateM.bind, h site]
  cases w site with
  | ok a left => exact hnext a left
  | error stop left => rfl

theorem erases_nodeAt (path : Path) :
    Erases view Tagged.forget (nodeAt path) (Minifier.Walk.nodeAt path) := by
  intro site
  unfold nodeAt Minifier.Walk.nodeAt
  show EStateM.bind (fun state => .ok state state) _ _ = _
  simp only [EStateM.bind, Site.forget, forget_at?]
  cases site.tree.at? path <;> rfl

theorem erases_updateAt {f : Tagged → Tagged} {g : Node → Node} (h : ∀ t, (f t).forget = g t.forget)
    (path : Path) : Erases view (fun u => u) (updateAt path f) (Minifier.Walk.updateAt path g) := by
  intro site
  show EStateM.Result.ok () (site.tree.forget.modifyAt g path, _) = .ok () _
  rw [← forget_modifyAt h]
  rfl

theorem trees_standIn (forest : Forest) (path : Path) : (standIn forest path).trees = forest.trees := by
  unfold standIn
  split <;> rfl

theorem erases_act {script : Script σ η} {action : Action τ η Unit} (h : script.Erases view action)
    (path : Path) :
    Erases view (fun r => (r.1.forget, r.2)) (act path script) (Minifier.Walk.act path action) := by
  intro site
  simp only [act, Minifier.Walk.act, Site.forget, forget_detach site.tree site.forest.next]
  cases site.tree.detach site.forest.next path with
  | none => rfl
  | some taken =>
      obtain ⟨node, left⟩ := taken
      have hact := h { root := left, path, node } site.state (standIn site.forest path)
      rw [trees_standIn] at hact
      simp only [Option.map_some]
      generalize script.play ({ root := left, path, node }, site.state, standIn site.forest path) = played
        at hact
      obtain ⟨error, c, s, forest⟩ := played
      have hcursor : (Cursor.forget { root := left, path, node } : Minifier.Cursor η)
        = { root := left.forget, path, node := node.forget } := rfl
      rw [hcursor] at hact
      rw [hact]
      cases error with
      | none => simp [toResult, forgetResult, putBack, Site.forget, Cursor.forget, forget_attach]
      | some error => simp [toResult, forgetResult, putBack, Site.forget, Cursor.forget, forget_attach]

section

variable {below : Path → Walk σ Settled} {plain : Path → Minifier.Walk τ Minifier.Settled}
  (h : ∀ path, Erases view Settled.forget (below path) (plain path))
include h

theorem erases_single (path : Path) (name : String) :
    Erases view (fun u => u) (single below path name) (Minifier.Walk.single plain path name) := by
  apply (h _).bind
  intro fate
  cases fate with
  | keep => exact .pure (fun u => u) ()
  | remove => exact erases_updateAt (fun t => forget_erase t name) path
  | flatten trees => exact .throw (fun u => u) _

theorem erases_slots (path : Path) (name : String) (i : Nat) (occupied : List Bool) :
    Erases view (List.map Settled.forget) (slots below path name i occupied)
      (Minifier.Walk.slots plain path name i occupied) := by
  induction occupied generalizing i with
  | nil => exact .pure (List.map Settled.forget) []
  | cons present occupied ih =>
      -- What comes behind the slot is the same whether or not it holds a node.
      have hrest : ∀ fate : Settled, Erases view (List.map Settled.forget)
          (slots below path name (i + 1) occupied >>= fun fates => pure (fate :: fates))
          (Minifier.Walk.slots plain path name (i + 1) occupied
            >>= fun fates => pure (fate.forget :: fates)) := by
        intro fate
        apply (ih (i + 1)).bind
        intro fates
        exact .pure (List.map Settled.forget) (fate :: fates)
      cases present with
      | false => exact (Erases.pure Settled.forget .keep).bind hrest
      | true => exact (h _).bind hrest

omit h in
theorem erases_rebuild (path : Path) (name : String) (fates : List Settled) :
    Erases view (fun u => u) (rebuild path name fates) (Sweep.rebuild path name (fates.map Settled.forget)) := by
  have hkeep : (fates.map Settled.forget).all Minifier.Settled.isKeep = fates.all Settled.isKeep := by
    rw [List.all_map]
    exact congrArg fates.all (funext Settled.isKeep_forget)
  unfold rebuild Sweep.rebuild
  rw [hkeep]
  split
  · exact .pure (fun u => u) ()
  · apply (erases_nodeAt path).bind
    intro t
    rw [forget_slots?]
    cases t.slots? name with
    | none => exact .throw (fun u => u) _
    | some slots =>
        apply erases_updateAt
        intro u
        rw [forget_set, forgetField, forget_compactSlots]

theorem erases_list (path : Path) (name : String) (occupied : List Bool) :
    Erases view (fun u => u) (list below path name occupied) (Minifier.Walk.list plain path name occupied) := by
  rw [Sweep.walkList_eq]
  exact (erases_slots h path name 0 occupied).bind fun fates => erases_rebuild path name fates

theorem erases_field (path : Path) (name : String) :
    Erases view (fun u => u) (field below path name) (Minifier.Walk.field plain path name) := by
  apply (erases_nodeAt path).bind
  intro t
  rw [forget_get?]
  cases t.get? name with
  | none => exact .pure (fun u => u) ()
  | some content =>
      cases content with
      | value json => exact .pure (fun u => u) ()
      | child c => exact erases_single h path name
      | list slots =>
          have hoccupied : (forgetSlots slots).map Option.isSome = slots.map Option.isSome := by
            simp [forgetSlots_eq_map, Function.comp_def]
          simp only [Option.map_some, forgetField, hoccupied]
          exact erases_list h path name _

theorem erases_children (path : Path) :
    Erases view (fun u => u) (children below path) (Minifier.Walk.children plain path) := by
  apply (erases_nodeAt path).bind
  intro t
  rw [kind_forget]
  induction t.kind.fields with
  | nil => exact .pure (fun u => u) ()
  | cons name names ih => exact (erases_field h path name).bind fun _ => ih

end

end Walk

namespace Visitor

variable {view : σ → List Tagged → τ} {v : Visitor σ η} {plain : Minifier.Visitor τ η}

theorem erases_finish (h : v.Erases view plain) (path : Path) (hook : Option η) :
    Walk.Erases view Settled.forget (v.finish path hook)
      (Minifier.Visitor.walk.finish plain path hook) := by
  cases hook with
  | none => exact .pure Settled.forget .keep
  | some hook =>
      apply (Walk.erases_act (h.leave hook) path).bind
      rintro ⟨outcome, _⟩
      show Walk.Erases view Settled.forget _ (pure outcome.forget.settle)
      rw [← Outcome.forget_settle]
      exact .pure Settled.forget outcome.settle

theorem erases_walk (h : v.Erases view plain) (levels : Nat) (path : Path) :
    Walk.Erases view Settled.forget (v.walk levels path) (plain.walk levels path) := by
  induction levels generalizing path with
  | zero => exact .throw Settled.forget _
  | succ levels ih =>
      apply (Walk.erases_act h.enter path).bind
      rintro ⟨outcome, hook⟩
      cases outcome with
      | removed => exact .pure Settled.forget .remove
      | spliced trees => exact .pure Settled.forget (.flatten trees)
      | replaced => exact erases_finish h path hook
      | kept => exact (Walk.erases_children ih path).bind fun _ => erases_finish h path hook

/-- **A walk over a tree with identities is the walk over the tree without.** -/
theorem forget_run (h : v.Erases view plain) (levels : Nat) (tree : Tagged) (state : σ) (forest : Forest) :
    plain.run levels tree.forget (view state forest.trees)
      = ⟨(v.run levels tree state forest).site.tree.forget,
          view (v.run levels tree state forest).site.state
            (v.run levels tree state forest).site.forest.trees,
          (v.run levels tree state forest).stop⟩ := by
  have hwalk := erases_walk h levels [] ⟨tree, state, forest, []⟩
  have hsite : (Site.forget view ⟨tree, state, forest, []⟩ : Node × τ)
    = (tree.forget, view state forest.trees) := rfl
  rw [hsite] at hwalk
  unfold run Minifier.Visitor.run
  rw [hwalk]
  cases v.walk levels [] ⟨tree, state, forest, []⟩ with
  | ok fate site => rfl
  | error stop site => rfl

end Visitor

end Minifier.Tagged
