import Minifier.Proofs.Edit.Sweep
import Minifier.Proofs.Entries

/-!
# The calls that a walk makes

A visitor can be made to note its calls: where it was called, what it met, what it left and what it
decided. Noting them changes nothing about the walk (`run_noted`).

The notes tell what the walk did. `VisitedWithin` says which calls belong to a visit that is complete, and
what they leave of a node: lists are rebuilt from the fates of their slots, fields whose child is removed are
taken out, and a node is left as its last call left it. `HaltedWithin` says the same of a visit that a call
has cut short by failing. `comes_node` reads them off a sweep, and `halted_of_mem_history` off a walk.
-/

namespace Minifier

variable {σ η α β γ : Type}

/-- A call of a visitor. -/
structure Call where
  path : Path
  /-- it was made on entering the node, not on leaving it -/
  entering : Bool
  /-- the tree that the visitor saw, with the slot of the position empty -/
  seen : Node
  /-- the node that the visitor met -/
  given : Node
  /-- the node as the visitor left it -/
  left : Node
  /-- the decision of the visitor, or its error -/
  verdict : Except Error Outcome

/-- Act, and note the call behind the calls before. -/
def Action.noted (entering : Bool) (action : Action σ η Unit) : Action (σ × List Call) η Unit :=
  fun (c, s, calls) =>
    match action (c, s) with
    | .ok _ (c', s) =>
      .ok () (c', s, calls ++ [⟨c.path, entering, c.root, c.node, c'.node, .ok c'.outcome⟩])
    | .error error (c', s) =>
      .error error (c', s, calls ++ [⟨c.path, entering, c.root, c.node, c'.node, .error error⟩])

namespace Visitor

/-- The visitor that notes its calls. -/
def noted (v : Visitor σ η) : Visitor (σ × List Call) η where
  enter := v.enter.noted true
  leave hook := (v.leave hook).noted false

/-- The calls that a walk makes, in order. -/
def history (v : Visitor σ η) (levels : Nat) (tree : Node) (state : σ) : List Call :=
  (v.noted.run levels tree (state, [])).state.2

end Visitor

/-! ## Noting changes nothing -/

namespace History

/-- A result without the notes. -/
def forget : EStateM.Result Stop (Node × σ × List Call) α → EStateM.Result Stop (Node × σ) α
  | .ok a (n, s, _) => .ok a (n, s)
  | .error stop (n, s, _) => .error stop (n, s)

/-- The first walk is the second one with notes. -/
def Notes (noted : Walk (σ × List Call) α) (plain : Walk σ α) : Prop :=
  ∀ n s calls, forget (noted (n, s, calls)) = plain (n, s)

theorem Notes.pure (a : α) : Notes (pure a : Walk (σ × List Call) α) (pure a) := fun _ _ _ => rfl

theorem Notes.throw (stop : Stop) : Notes (throw stop : Walk (σ × List Call) α) (throw stop) :=
  fun _ _ _ => rfl

theorem Notes.bind {noted : Walk (σ × List Call) α} {plain : Walk σ α}
    {next : α → Walk (σ × List Call) β} {next' : α → Walk σ β} (h : Notes noted plain)
    (hnext : ∀ a, Notes (next a) (next' a)) : Notes (noted >>= next) (plain >>= next') := by
  intro n s calls
  show forget (EStateM.bind noted next _) = EStateM.bind plain next' _
  simp only [EStateM.bind, ← h n s calls]
  cases noted (n, s, calls) with
  | ok a left => exact hnext a left.1 left.2.1 left.2.2
  | error stop left => rfl

theorem notes_act (path : Path) (entering : Bool) (action : Action σ η Unit) :
    Notes (Walk.act path (action.noted entering)) (Walk.act path action) := by
  intro n s calls
  simp only [Walk.act]
  cases n.detach path with
  | none => rfl
  | some taken =>
      obtain ⟨node, rest⟩ := taken
      simp only [Action.noted]
      cases action ({ root := rest, path := path, node := node }, s) <;> rfl

theorem notes_nodeAt (path : Path) :
    Notes (Walk.nodeAt path : Walk (σ × List Call) Node) (Walk.nodeAt path) := by
  intro n s calls
  unfold Walk.nodeAt
  show forget (EStateM.bind (fun state => .ok state state) _ _)
    = EStateM.bind (fun state => .ok state state) _ _
  simp only [EStateM.bind]
  cases n.at? path <;> rfl

theorem notes_updateAt (path : Path) (f : Node → Node) :
    Notes (Walk.updateAt path f : Walk (σ × List Call) Unit) (Walk.updateAt path f) := fun _ _ _ => rfl

section

variable {noted : Path → Walk (σ × List Call) Settled} {plain : Path → Walk σ Settled}
  (h : ∀ path, Notes (noted path) (plain path))
include h

theorem notes_single (path : Path) (name : String) :
    Notes (Walk.single noted path name) (Walk.single plain path name) := by
  apply (h _).bind
  intro fate
  cases fate with
  | keep => exact .pure ()
  | remove => exact notes_updateAt path _
  | flatten nodes => exact .throw _

theorem notes_slots (path : Path) (name : String) (i : Nat) (occupied : List Bool) :
    Notes (Walk.slots noted path name i occupied) (Walk.slots plain path name i occupied) := by
  induction occupied generalizing i with
  | nil => exact .pure []
  | cons present occupied ih =>
      cases present with
      | false => exact (Notes.pure _).bind fun _ => (ih (i + 1)).bind fun _ => .pure _
      | true => exact (h _).bind fun _ => (ih (i + 1)).bind fun _ => .pure _

theorem notes_list (path : Path) (name : String) (occupied : List Bool) :
    Notes (Walk.list noted path name occupied) (Walk.list plain path name occupied) := by
  rw [Sweep.walkList_eq, Sweep.walkList_eq]
  apply (notes_slots h path name 0 occupied).bind
  intro fates
  unfold Sweep.rebuild
  by_cases hkeep : fates.all Settled.isKeep = true
  · rw [if_pos hkeep, if_pos hkeep]
    exact .pure ()
  · rw [if_neg hkeep, if_neg hkeep]
    apply (notes_nodeAt path).bind
    intro n
    cases n.slots? name with
    | none => exact .throw _
    | some slots => exact notes_updateAt path _

theorem notes_field (path : Path) (name : String) :
    Notes (Walk.field noted path name) (Walk.field plain path name) := by
  apply (notes_nodeAt path).bind
  intro n
  cases n.get? name with
  | none => exact .pure ()
  | some content =>
      cases content with
      | value json => exact .pure ()
      | child c => exact notes_single h path name
      | list slots => exact notes_list h path name _

theorem notes_children (path : Path) :
    Notes (Walk.children noted path) (Walk.children plain path) := by
  apply (notes_nodeAt path).bind
  intro n
  induction n.kind.fields with
  | nil => exact .pure ()
  | cons name names ih => exact (notes_field h path name).bind fun _ => ih

end

theorem notes_finish (v : Visitor σ η) (path : Path) (hook : Option η) :
    Notes (Visitor.walk.finish v.noted path hook) (Visitor.walk.finish v path hook) := by
  cases hook with
  | none => exact .pure _
  | some hook => exact (notes_act path false (v.leave hook)).bind fun _ => .pure _

theorem notes_walk (v : Visitor σ η) (levels : Nat) (path : Path) :
    Notes (v.noted.walk levels path) (v.walk levels path) := by
  induction levels generalizing path with
  | zero => exact .throw _
  | succ levels ih =>
      apply (notes_act path true v.enter).bind
      rintro ⟨outcome, hook⟩
      cases outcome with
      | removed => exact .pure _
      | spliced nodes => exact .pure _
      | replaced => exact notes_finish v path hook
      | kept => exact (notes_children ih path).bind fun _ => notes_finish v path hook

/-- A visitor that notes its calls leaves the same tree, and stops for the same reason. -/
theorem run_noted (v : Visitor σ η) (levels : Nat) (tree : Node) (state : σ) (calls : List Call) :
    (v.noted.run levels tree (state, calls)).tree = (v.run levels tree state).tree ∧
      (v.noted.run levels tree (state, calls)).stop = (v.run levels tree state).stop := by
  unfold Visitor.run
  rw [← notes_walk v levels [] tree state calls]
  cases v.noted.walk levels [] (tree, state, calls) <;> exact ⟨rfl, rfl⟩

end History

/-! ## Visits that are complete

The relations of one level are stated over those of the level below. -/

section

variable (below : Path → Node → List Call → Settled → Node → Prop) (base : Path)

/-- The calls of a pass over slots, from the index on: with the fates of the slots, and with the slots as they
are left, all of them still in their places. -/
inductive SlotsVisited (name : String) :
    Nat → List (Option Node) → List Call → List Settled → List (Option Node) → Prop
  | nil {i : Nat} : SlotsVisited name i [] [] [] []
  | hole {i : Nat} {rest left : List (Option Node)} {calls : List Call} {fates : List Settled} :
      SlotsVisited name (i + 1) rest calls fates left →
      SlotsVisited name i (none :: rest) calls (.keep :: fates) (none :: left)
  | node {i : Nat} {c c' : Node} {rest left : List (Option Node)} {calls calls' : List Call}
      {fate : Settled} {fates : List Settled} :
      below (base ++ [⟨name, some i⟩]) c calls fate c' →
      SlotsVisited name (i + 1) rest calls' fates left →
      SlotsVisited name i (some c :: rest) (calls ++ calls') (fate :: fates) (some c' :: left)

/-- The calls of a pass over a field, and what they leave of the node. -/
inductive FieldVisited (name : String) (n : Node) : List Call → Node → Prop
  | skipped : FieldVisited name n [] n
  | kept {c c' : Node} {calls : List Call} :
      n.get? name = some (.child c) → below (base ++ [⟨name, none⟩]) c calls .keep c' →
      FieldVisited name n calls (n.set name (.child c'))
  | removed {c c' : Node} {calls : List Call} :
      n.get? name = some (.child c) → below (base ++ [⟨name, none⟩]) c calls .remove c' →
      FieldVisited name n calls (n.erase name)
  | list {slots left : List (Option Node)} {calls : List Call} {fates : List Settled} :
      n.get? name = some (.list slots) → SlotsVisited below base name 0 slots calls fates left →
      FieldVisited name n calls (n.set name (.list (compactSlots left fates)))

/-- The calls of a pass over some fields. -/
inductive FieldsVisited : List String → Node → List Call → Node → Prop
  | nil {n : Node} : FieldsVisited [] n [] n
  | cons {name : String} {names : List String} {n m r : Node} {calls calls' : List Call} :
      FieldVisited below base name n calls m → FieldsVisited names m calls' r →
      FieldsVisited (name :: names) n (calls ++ calls') r

/-- The calls below a node that was entered with this outcome. What replaces a node is not visited. -/
inductive InsideVisited (m : Node) : Outcome → List Call → Node → Prop
  | replaced : InsideVisited m .replaced [] m
  | kept {calls : List Call} {r : Node} :
      FieldsVisited below base m.kind.fields m calls r → InsideVisited m .kept calls r

/-- The call on leaving a node, if it has a hook. -/
inductive Leaving (n : Node) : List Call → Settled → Node → Prop
  | unhooked : Leaving n [] .keep n
  | hooked {seen m : Node} {outcome : Outcome} :
      Leaving n [⟨base, false, seen, n, m, .ok outcome⟩] outcome.settle m

/-- The calls of a visit of a node and of what is below it. -/
inductive NodeVisited (n : Node) : List Call → Settled → Node → Prop
  | dropped {seen m : Node} {outcome : Outcome} :
      NodeVisited n [⟨base, true, seen, n, m, .ok outcome⟩] outcome.settle m
  | settled {seen m r r' : Node} {outcome : Outcome} {calls calls' : List Call} {fate : Settled} :
      InsideVisited below base m outcome calls r → Leaving base r calls' fate r' →
      NodeVisited n (⟨base, true, seen, n, m, .ok outcome⟩ :: (calls ++ calls')) fate r'

end

/-- The calls of a visit of a node at a position, the fate of the position, and what is left of the node. -/
def VisitedWithin : Nat → Path → Node → List Call → Settled → Node → Prop
  | 0 => fun _ _ _ _ _ => False
  | levels + 1 => NodeVisited (VisitedWithin levels)

section

variable {below : Path → Node → List Call → Settled → Node → Prop} {base : Path} {name : String}
  {names : List String} {n r : Node} {calls : List Call}

/-- A pass over slots finds and leaves the same holes. -/
theorem SlotsVisited.map_isSome {i : Nat} {slots left : List (Option Node)} {fates : List Settled}
    (h : SlotsVisited below base name i slots calls fates left) :
    left.map Option.isSome = slots.map Option.isSome := by
  induction h with
  | nil => rfl
  | hole _ ih => exact congrArg (false :: ·) ih
  | node _ _ ih => exact congrArg (true :: ·) ih

theorem SlotsVisited.length_eq {i : Nat} {slots left : List (Option Node)} {fates : List Settled}
    (h : SlotsVisited below base name i slots calls fates left) :
    left.length = slots.length ∧ fates.length = left.length := by
  induction h with
  | nil => exact ⟨rfl, rfl⟩
  | hole _ ih => exact ⟨congrArg (· + 1) ih.1, congrArg (· + 1) ih.2⟩
  | node _ _ ih => exact ⟨congrArg (· + 1) ih.1, congrArg (· + 1) ih.2⟩

theorem Node.get?_erase_of_ne {other : String} (h : other ≠ name) :
    (n.erase name).get? other = n.get? other :=
  Entries.get?_erase_of_ne h

/-- A pass over a field leaves the other ones. -/
theorem FieldVisited.frame (h : FieldVisited below base name n calls r) :
    r.kind = n.kind ∧ ∀ other, other ≠ name → r.get? other = n.get? other := by
  cases h with
  | skipped => exact ⟨rfl, fun _ _ => rfl⟩
  | kept _ _ => exact ⟨rfl, fun _ hne => Node.get?_set_of_ne hne⟩
  | removed _ _ => exact ⟨rfl, fun _ hne => Node.get?_erase_of_ne hne⟩
  | list _ _ => exact ⟨rfl, fun _ hne => Node.get?_set_of_ne hne⟩

theorem FieldsVisited.frame (h : FieldsVisited below base names n calls r) :
    r.kind = n.kind ∧ ∀ other, other ∉ names → r.get? other = n.get? other := by
  induction h with
  | nil => exact ⟨rfl, fun _ _ => rfl⟩
  | cons hfirst _ ih =>
      obtain ⟨hkind, hget⟩ := hfirst.frame
      refine ⟨ih.1.trans hkind, fun other hother => ?_⟩
      rw [List.mem_cons, not_or] at hother
      rw [ih.2 other hother.2, hget other hother.1]

end

/-! ## Visits that are cut short -/

section

variable (below : Path → Node → List Call → Settled → Node → Prop)
  (halted : Path → Node → List Call → Call → Path → Node → Prop) (base : Path)

/-- A pass over slots in which a call failed, at the path that is given from the list on: the slots before
are visited, and those behind are not. -/
inductive SlotsHalted (name : String) (i : Nat) :
    List (Option Node) → List Call → Call → Path → List (Option Node) → Prop
  | slot {slots left rest : List (Option Node)} {calls calls' : List Call} {fates : List Settled}
      {c c' : Node} {call : Call} {p : Path} :
      SlotsVisited below base name i slots calls fates left →
      halted (base ++ [⟨name, some (i + slots.length)⟩]) c calls' call p c' →
      SlotsHalted name i (slots ++ some c :: rest) (calls ++ calls') call
        (⟨name, some (i + slots.length)⟩ :: p) (left ++ some c' :: rest)

/-- A pass over a field in which a call failed. -/
inductive FieldHalted (name : String) (n : Node) : List Call → Call → Path → Node → Prop
  | child {c c' : Node} {calls : List Call} {call : Call} {p : Path} :
      n.get? name = some (.child c) → halted (base ++ [⟨name, none⟩]) c calls call p c' →
      FieldHalted name n calls call (⟨name, none⟩ :: p) (n.set name (.child c'))
  | list {slots left : List (Option Node)} {calls : List Call} {call : Call} {p : Path} :
      n.get? name = some (.list slots) → SlotsHalted below halted base name 0 slots calls call p left →
      FieldHalted name n calls call p (n.set name (.list left))

/-- A pass over some fields in which a call failed: the fields before are visited, and those behind are
not. -/
inductive FieldsHalted : List String → Node → List Call → Call → Path → Node → Prop
  | field {names names' : List String} {name : String} {n m r : Node} {calls calls' : List Call}
      {call : Call} {p : Path} :
      FieldsVisited below base names n calls m → FieldHalted below halted base name m calls' call p r →
      FieldsHalted (names ++ name :: names') n (calls ++ calls') call p r

/-- A visit of a node in which a call failed. -/
inductive NodeHalted (n : Node) : List Call → Call → Path → Node → Prop
  | entering {seen m : Node} {error : Error} :
      NodeHalted n [] ⟨base, true, seen, n, m, .error error⟩ [] m
  | leaving {seen seen' m r r' : Node} {outcome : Outcome} {calls : List Call} {error : Error} :
      InsideVisited below base m outcome calls r →
      NodeHalted n (⟨base, true, seen, n, m, .ok outcome⟩ :: calls)
        ⟨base, false, seen', r, r', .error error⟩ [] r'
  | inside {seen m r : Node} {calls : List Call} {call : Call} {p : Path} :
      FieldsHalted below halted base m.kind.fields m calls call p r →
      NodeHalted n (⟨base, true, seen, n, m, .ok .kept⟩ :: calls) call p r

end

/-- The calls of a visit before the one that failed, that call, where it was made from the node on, and what
is left of the node. -/
def HaltedWithin : Nat → Path → Node → List Call → Call → Path → Node → Prop
  | 0 => fun _ _ _ _ _ _ => False
  | levels + 1 => NodeHalted (VisitedWithin levels) (HaltedWithin levels)

section

variable {below : Path → Node → List Call → Settled → Node → Prop}
  {halted : Path → Node → List Call → Call → Path → Node → Prop} {base p : Path} {name : String}
  {calls calls' : List Call} {call : Call}

theorem SlotsHalted.hole {i : Nat} {rest left : List (Option Node)}
    (h : SlotsHalted below halted base name (i + 1) rest calls call p left) :
    SlotsHalted below halted base name i (none :: rest) calls call p (none :: left) := by
  cases h with
  | @slot slots _ _ _ _ _ _ _ _ _ hslots hslot =>
      have hindex : i + 1 + slots.length = i + (none :: slots).length := by
        rw [List.length_cons]
        omega
      rw [hindex] at hslot ⊢
      exact .slot (.hole hslots) hslot

theorem SlotsHalted.node {i : Nat} {c c' : Node} {fate : Settled} {rest left : List (Option Node)}
    (hfirst : below (base ++ [⟨name, some i⟩]) c calls fate c')
    (h : SlotsHalted below halted base name (i + 1) rest calls' call p left) :
    SlotsHalted below halted base name i (some c :: rest) (calls ++ calls') call p (some c' :: left) := by
  cases h with
  | @slot slots _ _ _ _ _ _ _ _ _ hslots hslot =>
      have hindex : i + 1 + slots.length = i + (some c :: slots).length := by
        rw [List.length_cons]
        omega
      rw [hindex] at hslot ⊢
      rw [← List.append_assoc]
      exact .slot (.node hfirst hslots) hslot

theorem FieldsHalted.first {names : List String} {n r : Node}
    (h : FieldHalted below halted base name n calls call p r) :
    FieldsHalted below halted base (name :: names) n calls call p r := by
  rw [← List.nil_append (name :: names), ← List.nil_append calls]
  exact .field .nil h

theorem FieldsHalted.cons {names : List String} {n m r : Node}
    (hfirst : FieldVisited below base name n calls m)
    (h : FieldsHalted below halted base names m calls' call p r) :
    FieldsHalted below halted base (name :: names) n (calls ++ calls') call p r := by
  cases h with
  | field hbefore hfield =>
      rw [← List.append_assoc]
      exact .field (.cons hfirst hbefore) hfield

end

/-! ## Reading the calls off a sweep -/

namespace History

/-- The visitor did not fail in the call. -/
def Fine (call : Call) : Prop := ∃ outcome, call.verdict = .ok outcome

/-- The calls of a sweep that does not get to its end, and the tree that is left. The last call failed, and the
tree is the one that it saw with the node put back; or the sweep stopped between two calls. -/
def Breaks (tree : Node) (halted : List Call → Call → Path → Prop) (stop : Stop) (new : List Call) : Prop :=
  (∀ c ∈ new, Fine c) ∨
    ∃ before call p error, new = before ++ [call] ∧ (∀ c ∈ before, Fine c) ∧ halted before call p ∧
      call.verdict = .error error ∧ stop = .failed error ∧ tree = call.seen.attach call.left call.path

theorem Breaks.imp {tree tree' : Node} {halted halted' : List Call → Call → Path → Prop} {stop : Stop}
    {new : List Call} (h : Breaks tree halted stop new) (htree : tree = tree')
    (hhalted : ∀ before call p, halted before call p → ∃ p', halted' before call p') :
    Breaks tree' halted' stop new := by
  rcases h with hfine | ⟨before, call, p, error, hnew, hfine, hbefore, hverdict, hstop, heq⟩
  · exact .inl hfine
  · obtain ⟨p', hp'⟩ := hhalted before call p hbefore
    exact .inr ⟨before, call, p', error, hnew, hfine, hp', hverdict, hstop, htree.symm.trans heq⟩

theorem Breaks.behind {tree : Node} {halted : List Call → Call → Path → Prop} {stop : Stop}
    {first new : List Call} (hfirst : ∀ c ∈ first, Fine c)
    (h : Breaks tree (fun before => halted (first ++ before)) stop new) :
    Breaks tree halted stop (first ++ new) := by
  rcases h with hfine | ⟨before, call, p, error, rfl, hfine, hbefore, hrest⟩
  · exact .inl (List.forall_mem_append.mpr ⟨hfirst, hfine⟩)
  · exact .inr ⟨first ++ before, call, p, error, (List.append_assoc ..).symm,
      List.forall_mem_append.mpr ⟨hfirst, hfine⟩, hbefore, hrest⟩

/-- What a sweep with notes comes to. If it gets to its end, the notes are those of a complete visit. -/
def Comes (wrap : β → Node) (visited : List Call → α → β → Prop)
    (halted : List Call → Call → Path → β → Prop) (calls : List Call) :
    EStateM.Result Stop (β × σ × List Call) α → Prop
  | .ok a (left, _, calls') =>
      ∃ new, calls' = calls ++ new ∧ (∀ c ∈ new, Fine c) ∧ visited new a left
  | .error stop (left, _, calls') =>
      ∃ new, calls' = calls ++ new ∧
        Breaks (wrap left) (fun before call p => halted before call p left) stop new

variable {wrap : β → Node} {visited visited' : List Call → α → β → Prop}
  {halted halted' : List Call → Call → Path → β → Prop} {calls : List Call}

theorem Comes.imp {result : EStateM.Result Stop (β × σ × List Call) α}
    (h : Comes wrap visited halted calls result)
    (hvisited : ∀ {new a left}, visited new a left → visited' new a left)
    (hhalted : ∀ {before call p left}, halted before call p left → halted' before call p left) :
    Comes wrap visited' halted' calls result := by
  cases result with
  | ok a left =>
      obtain ⟨new, hcalls, hfine, hnew⟩ := h
      exact ⟨new, hcalls, hfine, hvisited hnew⟩
  | error stop left =>
      obtain ⟨new, hcalls, hnew⟩ := h
      exact ⟨new, hcalls, hnew.imp rfl fun _ _ p h => ⟨p, hhalted h⟩⟩

/-- After some calls, what comes later is told with those calls before it. -/
theorem Comes.behind {first : List Call} {result : EStateM.Result Stop (β × σ × List Call) α}
    (hfirst : ∀ c ∈ first, Fine c)
    (h : Comes wrap (fun new a left => visited (first ++ new) a left)
      (fun before call p left => halted (first ++ before) call p left) (calls ++ first) result) :
    Comes wrap visited halted calls result := by
  cases result with
  | ok a left =>
      obtain ⟨new, hcalls, hfine, hnew⟩ := h
      refine ⟨first ++ new, by rw [hcalls, List.append_assoc], ?_, hnew⟩
      exact List.forall_mem_append.mpr ⟨hfirst, hfine⟩
  | error stop left =>
      obtain ⟨new, hcalls, hnew⟩ := h
      exact ⟨first ++ new, by rw [hcalls, List.append_assoc], hnew.behind hfirst⟩

/-- A sweep and then another one. -/
theorem Comes.bind {wrap : Node → Node} {visited : List Call → α → Node → Prop}
    {visited' : List Call → γ → Node → Prop} {halted halted' : List Call → Call → Path → Node → Prop}
    {sweep : Walk (σ × List Call) α} {next : α → Walk (σ × List Call) γ} {x : Node × σ × List Call}
    (h : Comes wrap visited halted calls (sweep x))
    (hhalted : ∀ {before call p left}, halted before call p left → halted' before call p left)
    (hnext : ∀ new a left s, visited new a left →
      Comes wrap (fun new' b left' => visited' (new ++ new') b left')
        (fun before call p left' => halted' (new ++ before) call p left') (calls ++ new)
        (next a (left, s, calls ++ new))) :
    Comes wrap visited' halted' calls ((sweep >>= next) x) := by
  show Comes _ _ _ _ (EStateM.bind sweep next x)
  simp only [EStateM.bind]
  cases hsweep : sweep x with
  | ok a left =>
      rw [hsweep] at h
      obtain ⟨left, s, calls'⟩ := left
      obtain ⟨new, rfl, hfine, hnew⟩ := h
      exact (hnext new a left s hnew).behind hfine
  | error stop left =>
      rw [hsweep] at h
      obtain ⟨new, hcalls, hnew⟩ := h
      exact ⟨new, hcalls, hnew.imp rfl fun _ _ p h => ⟨p, hhalted h⟩⟩

variable {around : Surroundings}

/-- A call is noted, and if it fails, the sweep ends with it. -/
theorem comes_act (ho : around.Open) (entering : Bool) (action : Action σ η Unit) (n : Node) (s : σ)
    (calls : List Call) :
    Comes around.wrap
      (fun new (decided : Outcome × Option η) left =>
        new = [⟨around.path, entering, around.root, n, left, .ok decided.1⟩])
      (fun before call p left => before = [] ∧ p = [] ∧
        ∃ error, call = ⟨around.path, entering, around.root, n, left, .error error⟩)
      calls (Sweep.act around (action.noted entering) (n, s, calls)) := by
  simp only [Sweep.act, Action.noted]
  cases action ({ root := around.root, path := around.path, node := n }, s) with
  | ok a left =>
      refine ⟨_, rfl, ?_, rfl⟩
      intro c hc
      rw [List.mem_singleton.mp hc]
      exact ⟨_, rfl⟩
  | error error left =>
      refine ⟨_, rfl, .inr ⟨[], _, [], error, rfl, by simp, ⟨rfl, rfl, error, rfl⟩, rfl, rfl, ?_⟩⟩
      exact (Surroundings.attach_root ho _).symm

theorem comes_leave (ho : around.Open) (v : Visitor σ η) (hook : Option η) (n : Node) (s : σ)
    (calls : List Call) :
    Comes around.wrap (Leaving around.path n)
      (fun before call p left => before = [] ∧ p = [] ∧
        ∃ error, call = ⟨around.path, false, around.root, n, left, .error error⟩)
      calls (Sweep.leave v.noted around hook (n, s, calls)) := by
  cases hook with
  | none => exact ⟨[], (List.append_nil calls).symm, by simp, .unhooked⟩
  | some hook =>
      rw [Sweep.leave_some]
      apply (comes_act ho false (v.leave hook) n s calls).bind id
      intro new decided left s hnew
      refine ⟨[], (List.append_nil _).symm, by simp, ?_⟩
      rw [hnew]
      exact .hooked

section

variable {below : Path → Node → List Call → Settled → Node → Prop}
  {stopped : Path → Node → List Call → Call → Path → Node → Prop}

/-- What is known of a sweep one level below. -/
def ComesBelow (below : Path → Node → List Call → Settled → Node → Prop)
    (stopped : Path → Node → List Call → Call → Path → Node → Prop)
    (sweep : Surroundings → Walk (σ × List Call) Settled) : Prop :=
  ∀ around : Surroundings, around.Open → ∀ n s calls,
    Comes around.wrap (below around.path n) (stopped around.path n) calls (sweep around (n, s, calls))

variable {sweep : Surroundings → Walk (σ × List Call) Settled}

theorem comes_child (hbelow : ComesBelow below stopped sweep) (ho : around.Open) {n c : Node}
    {name : String} (h : n.get? name = some (.child c)) (s : σ) (calls : List Call) :
    Comes around.wrap (fun new _ => FieldVisited below around.path name n new)
      (FieldHalted below stopped around.path name n) calls
      (Sweep.child sweep around name c (n, s, calls)) := by
  let frame : Frame := ⟨n.set name (.value .null), ⟨name, none⟩⟩
  have hwrap : ∀ m, Surroundings.wrap (frame :: around) m = around.wrap (n.set name (.child m)) := by
    intro m
    show around.wrap ((n.set name (.value .null)).set name (.child m)) = _
    rw [Node.set_set]
  have hcomes := hbelow (frame :: around) (.cons (Sweep.open_child h) ho) c s calls
  rw [Surroundings.path_cons] at hcomes
  simp only [Sweep.child]
  cases hsweep : sweep (frame :: around) (c, s, calls) with
  | ok fate left =>
      rw [hsweep] at hcomes
      obtain ⟨c', s', calls'⟩ := left
      obtain ⟨new, hcalls, hfine, hnew⟩ := hcomes
      cases fate with
      | keep => exact ⟨new, hcalls, hfine, .kept h hnew⟩
      | remove => exact ⟨new, hcalls, hfine, .removed h hnew⟩
      | flatten nodes => exact ⟨new, hcalls, .inl hfine⟩
  | error stop left =>
      rw [hsweep] at hcomes
      obtain ⟨new, hcalls, hnew⟩ := hcomes
      exact ⟨new, hcalls, hnew.imp (hwrap _) fun _ _ _ hbefore => ⟨_, .child h hbefore⟩⟩

/-- The piece of a slot is told with the slots behind it. -/
theorem Comes.withPiece {wrap : List (Option Node) → Node}
    {visited visited' : List Call → List (List (Option Node)) → List (Option Node) → Prop}
    {halted halted' : List Call → Call → Path → List (Option Node) → Prop} {piece : List (Option Node)}
    {swept : Sweep.SlotsSwept (σ × List Call)} (h : Comes wrap visited halted calls swept)
    (hvisited : ∀ new pieces left, visited new pieces left → visited' new (piece :: pieces) left)
    (hhalted : ∀ before call p left, halted before call p left → halted' before call p left) :
    Comes wrap visited' halted' calls (Sweep.withPiece piece swept) := by
  cases swept with
  | ok pieces left =>
      obtain ⟨new, hcalls, hfine, hnew⟩ := h
      exact ⟨new, hcalls, hfine, hvisited new pieces left.1 hnew⟩
  | error stop left =>
      obtain ⟨new, hcalls, hnew⟩ := h
      exact ⟨new, hcalls, hnew.imp rfl fun before call p hbefore => ⟨p, hhalted before call p _ hbefore⟩⟩

/-- What a sweep of the slots behind those that are `done` comes to. -/
theorem comes_slots (hbelow : ComesBelow below stopped sweep) (ho : around.Open) (n : Node) (name : String)
    (done rest : List (Option Node)) (s : σ) (calls : List Call) :
    Comes (fun left => around.wrap (n.set name (.list left)))
      (fun new pieces left => ∃ fates rest', left = done ++ rest' ∧
        SlotsVisited below around.path name done.length rest new fates rest' ∧
        pieces.flatten = compactSlots rest' fates)
      (fun before call p left => ∃ rest', left = done ++ rest' ∧
        SlotsHalted below stopped around.path name done.length rest before call p rest')
      calls (Sweep.slots sweep around n name done rest (s, calls)) := by
  induction rest generalizing done s calls with
  | nil => exact ⟨[], (List.append_nil calls).symm, by simp, [], [], by simp, .nil, rfl⟩
  | cons slot rest ih =>
      cases slot with
      | none =>
          have hrest := ih (done ++ [none]) s calls
          rw [List.length_append, List.length_singleton] at hrest
          rw [Sweep.slots]
          apply hrest.withPiece
          · rintro new pieces left ⟨fates, rest', rfl, hslots, hflat⟩
            refine ⟨.keep :: fates, none :: rest', by simp, .hole hslots, ?_⟩
            rw [List.flatten_cons, hflat]
            rfl
          · rintro before call p left ⟨rest', rfl, hslots⟩
            exact ⟨none :: rest', by simp, hslots.hole⟩
      | some c =>
          let frame : Frame := ⟨n.set name (.list (done ++ none :: rest)), ⟨name, some done.length⟩⟩
          have hwrap : ∀ m, Surroundings.wrap (frame :: around) m
              = around.wrap (n.set name (.list (done ++ some m :: rest))) :=
            fun m => congrArg around.wrap (Sweep.fill_slot n m name done rest)
          have hcomes :=
            hbelow (frame :: around) (.cons (Sweep.open_slot n c name done rest) ho) c s calls
          rw [Surroundings.path_cons] at hcomes
          simp only [Sweep.slots]
          cases hsweep : sweep (frame :: around) (c, s, calls) with
          | ok fate left =>
              rw [hsweep] at hcomes
              obtain ⟨c', s', calls'⟩ := left
              obtain ⟨first, rfl, hfine, hfirst⟩ := hcomes
              have hrest := ih (done ++ [some c']) s' (calls ++ first)
              rw [List.length_append, List.length_singleton] at hrest
              apply Comes.behind hfine
              apply hrest.withPiece
              · rintro new pieces left ⟨fates, rest', rfl, hslots, hflat⟩
                refine ⟨fate :: fates, some c' :: rest', by simp, .node hfirst hslots, ?_⟩
                rw [List.flatten_cons, hflat, Sweep.piece_eq]
                rfl
              · rintro before call p left ⟨rest', rfl, hslots⟩
                exact ⟨some c' :: rest', by simp, .node hfirst hslots⟩
          | error stop left =>
              rw [hsweep] at hcomes
              obtain ⟨c', s', calls'⟩ := left
              obtain ⟨new, hcalls, hnew⟩ := hcomes
              refine ⟨new, hcalls, hnew.imp (hwrap _) fun _ _ _ hbefore => ?_⟩
              exact ⟨_, some c' :: rest, rfl, .slot .nil hbefore⟩

theorem comes_list (hbelow : ComesBelow below stopped sweep) (ho : around.Open) {n : Node} {name : String}
    {slots : List (Option Node)} (h : n.get? name = some (.list slots)) (s : σ) (calls : List Call) :
    Comes around.wrap (fun new _ => FieldVisited below around.path name n new)
      (FieldHalted below stopped around.path name n) calls
      (Sweep.list sweep around name slots (n, s, calls)) := by
  have hcomes := comes_slots hbelow ho n name [] slots s calls
  simp only [Sweep.list]
  cases hswept : Sweep.slots sweep around n name [] slots (s, calls) with
  | ok pieces left =>
      rw [hswept] at hcomes
      obtain ⟨new, hcalls, hfine, fates, left, _, hslots, hflat⟩ := hcomes
      refine ⟨new, hcalls, hfine, ?_⟩
      rw [hflat]
      exact .list h hslots
  | error stop left =>
      rw [hswept] at hcomes
      obtain ⟨left, s', calls'⟩ := left
      obtain ⟨new, hcalls, hnew⟩ := hcomes
      refine ⟨new, hcalls, hnew.imp rfl ?_⟩
      rintro before call p ⟨rest, rfl, hslots⟩
      exact ⟨p, .list h hslots⟩

theorem comes_field (hbelow : ComesBelow below stopped sweep) (ho : around.Open) (name : String) (n : Node)
    (s : σ) (calls : List Call) :
    Comes around.wrap (fun new _ => FieldVisited below around.path name n new)
      (FieldHalted below stopped around.path name n) calls
      (Sweep.field sweep around name (n, s, calls)) := by
  have hskipped : Comes around.wrap (fun new (_ : Unit) => FieldVisited below around.path name n new)
      (FieldHalted below stopped around.path name n) calls (.ok () (n, s, calls)) :=
    ⟨[], (List.append_nil calls).symm, by simp, .skipped⟩
  simp only [Sweep.field]
  cases hget : n.get? name with
  | none => exact hskipped
  | some content =>
      cases content with
      | value json => exact hskipped
      | child c => exact comes_child hbelow ho hget s calls
      | list slots => exact comes_list hbelow ho hget s calls

theorem comes_fields (hbelow : ComesBelow below stopped sweep) (ho : around.Open) (names : List String)
    (n : Node) (s : σ) (calls : List Call) :
    Comes around.wrap (fun new _ => FieldsVisited below around.path names n new)
      (FieldsHalted below stopped around.path names n) calls
      (names.forM (Sweep.field sweep around) (n, s, calls)) := by
  induction names generalizing n s calls with
  | nil => exact ⟨[], (List.append_nil calls).symm, by simp, .nil⟩
  | cons name names ih =>
      apply (comes_field hbelow ho name n s calls).bind
      · exact fun h => .first h
      · intro new _ m s hnew
        exact (ih m s (calls ++ new)).imp (fun h => .cons hnew h) (fun h => FieldsHalted.cons hnew h)

end

/-- **The calls of a sweep.** A sweep that gets to its end made the calls of a complete visit, and one that a
call stopped made those of a visit that is cut short. -/
theorem comes_node (v : Visitor σ η) (levels : Nat) :
    ComesBelow (VisitedWithin levels) (HaltedWithin levels) (Sweep.node v.noted levels) := by
  induction levels with
  | zero => exact fun _ _ _ _ calls => ⟨[], (List.append_nil calls).symm, .inl (by simp)⟩
  | succ levels ih =>
      intro around ho n s calls
      apply (comes_act ho true v.enter n s calls).bind
      · rintro before call p left ⟨rfl, rfl, error, rfl⟩
        exact NodeHalted.entering
      · rintro new ⟨outcome, hook⟩ m s rfl
        -- What comes after the fields is the same whether they were visited or not.
        let entered : Call := ⟨around.path, true, around.root, n, m, .ok outcome⟩
        have hleave : ∀ r s inner, InsideVisited (VisitedWithin levels) around.path m outcome inner r →
            Comes around.wrap
              (fun new => VisitedWithin (levels + 1) around.path n (entered :: (inner ++ new)))
              (fun before => HaltedWithin (levels + 1) around.path n (entered :: (inner ++ before)))
              (calls ++ [entered] ++ inner)
              (Sweep.leave v.noted around hook (r, s, calls ++ [entered] ++ inner)) := by
          intro r s inner hinside
          apply (comes_leave ho v hook r s _).imp
          · exact fun hleaving => NodeVisited.settled hinside hleaving
          · rintro before call p left ⟨rfl, rfl, error, rfl⟩
            rw [List.append_nil]
            exact NodeHalted.leaving hinside
        cases outcome with
        | removed => exact ⟨[], (List.append_nil _).symm, by simp, NodeVisited.dropped⟩
        | spliced nodes => exact ⟨[], (List.append_nil _).symm, by simp, NodeVisited.dropped⟩
        | replaced => simpa using hleave m s [] .replaced
        | kept =>
            apply (comes_fields ih ho m.kind.fields m s _).bind
            · exact fun hfields => NodeHalted.inside hfields
            · intro inner _ r s hfields
              exact hleave r s inner (.kept hfields)

/-- If a call of a walk fails, it is the last one, and the walk is cut short by it. The tree is the one that the
call saw, with its node put back. -/
theorem halted_of_mem_history {v : Visitor σ η} {levels : Nat} {tree : Node} {state : σ} {call : Call}
    {error : Error} (hcall : call ∈ v.history levels tree state) (herror : call.verdict = .error error) :
    (v.run levels tree state).stop = some (.failed error) ∧
      (v.run levels tree state).tree = call.seen.attach call.left call.path ∧
      ∃ before p, v.history levels tree state = before ++ [call] ∧
        HaltedWithin levels [] tree before call p (v.run levels tree state).tree := by
  have hnotFine : ¬ Fine call := by
    rintro ⟨outcome, houtcome⟩
    rw [herror] at houtcome
    cases houtcome
  have hcomes := comes_node v levels [] (fun _ h => nomatch h) tree state []
  obtain ⟨htree, hstop⟩ := run_noted v levels tree state []
  rw [← htree, ← hstop]
  rw [Visitor.history, Sweep.run_eq, Visitor.sweep] at hcall ⊢
  cases hsweep : Sweep.node v.noted levels [] (tree, state, []) with
  | ok fate left =>
      rw [hsweep] at hcall hcomes
      obtain ⟨left, s, calls⟩ := left
      obtain ⟨new, rfl, hfine, _⟩ := hcomes
      exact absurd (hfine call hcall) hnotFine
  | error stop left =>
      rw [hsweep] at hcall hcomes
      obtain ⟨left, s, calls⟩ := left
      obtain ⟨new, rfl,
        hfine | ⟨before, last, p, error', rfl, hfine, hhalted, herror', hstop, htree⟩⟩ := hcomes
      · exact absurd (hfine call hcall) hnotFine
      · rcases List.mem_append.mp hcall with hmem | hmem
        · exact absurd (hfine call hmem) hnotFine
        · obtain rfl := List.mem_singleton.mp hmem
          rw [herror] at herror'
          cases herror'
          exact ⟨congrArg some hstop, htree, before, p, rfl, hhalted⟩

end History

end Minifier
