import Minifier.Proofs.Edit.Surroundings

/-!
# The walk as a recursion on nodes

`Visitor.walk` addresses every position by its path from the root: it takes the node out of the tree,
lets the visitor act, puts the node back, and finds it again for each field. `Visitor.sweep` says what
that comes to. It is a plain recursion that holds the node of one position in its hands, and beside it
the `Surroundings` that a visitor may look at:

* The visitor acts on the node. A node that it removes or splices is done with, and its hook is
  dropped; a node that it replaces is not entered.
* Otherwise the fields of the node are swept in order, as the visitor left it. A child is swept and put
  back, or its field is taken out. A list is swept from left to right; each child sees the slots
  before it as they were left, at their old indices, and those after it as they were. Each slot
  then makes one *piece*, and the pieces in a row are the new list.
* Last, the hook acts on the node.

`run_eq_sweep` is the refinement: on every tree, for every visitor, the two end alike.
-/

namespace Minifier

variable {σ η α β : Type}

namespace Sweep

/-! ### The recursion -/

/-- Let a visitor act on the node of a position. -/
def act (around : Surroundings) (action : Action σ η Unit) : Walk σ (Outcome × Option η) :=
  fun (node, s) =>
    match action ({ root := around.root, path := around.path, node }, s) with
    | .ok _ (c, s) => .ok (c.outcome, c.hook) (c.node, s)
    | .error error (c, s) => .error (.failed error) (c.node, s)

/-- Sweep the child in a field, and put what became of it back. -/
def child (below : Surroundings → Walk σ Settled) (around : Surroundings) (field : String)
    (child : Node) : Walk σ Unit := fun (node, s) =>
  match below (⟨node.set field (.value .null), ⟨field, none⟩⟩ :: around) (child, s) with
  | .ok .keep (child, s) => .ok () (node.set field (.child child), s)
  | .ok .remove (_, s) => .ok () (node.erase field, s)
  | .ok (.flatten _) (child, s) =>
    .error (.failed (.edit (.spliceIntoField field))) (node.set field (.child child), s)
  | .error stop (child, s) => .error stop (node.set field (.child child), s)

/-- What a sweep of slots makes: the pieces, and with the visitor's state all slots as they were left. -/
abbrev SlotsSwept (σ : Type) :=
  EStateM.Result Stop (List (Option Node) × σ) (List (List (Option Node)))

/-- Put the piece of a slot before the pieces of the slots behind it. -/
def withPiece (piece : List (Option Node)) : SlotsSwept σ → SlotsSwept σ
  | .ok pieces left => .ok (piece :: pieces) left
  | .error stop left => .error stop left

/-- The piece that is made of a slot: the child as it was left, nothing, or the nodes in its place. -/
def piece (child : Node) : Settled → List (Option Node)
  | .keep => [some child]
  | .remove => []
  | .flatten nodes => nodes.map some

/-- Sweep the slots of a list behind those that are `done`. -/
def slots (below : Surroundings → Walk σ Settled) (around : Surroundings) (node : Node)
    (field : String) (done : List (Option Node)) : List (Option Node) → σ → SlotsSwept σ
  | [], s => .ok [] (done, s)
  | none :: rest, s => withPiece [none] (slots below around node field (done ++ [none]) rest s)
  | some child :: rest, s =>
    match below (⟨node.set field (.list (done ++ none :: rest)), ⟨field, some done.length⟩⟩ :: around)
        (child, s) with
    | .ok settled (child, s) =>
      withPiece (piece child settled)
        (slots below around node field (done ++ [some child]) rest s)
    | .error stop (child, s) => .error stop (done ++ some child :: rest, s)

/-- Sweep a list, and put the pieces in its place. -/
def list (below : Surroundings → Walk σ Settled) (around : Surroundings) (field : String)
    (list : List (Option Node)) : Walk σ Unit := fun (node, s) =>
  match slots below around node field [] list s with
  | .ok pieces (_, s) => .ok () (node.set field (.list pieces.flatten), s)
  | .error stop (left, s) => .error stop (node.set field (.list left), s)

/-- Sweep what a field holds. -/
def field (below : Surroundings → Walk σ Settled) (around : Surroundings) (name : String) :
    Walk σ Unit := fun (node, s) =>
  match node.get? name with
  | some (.child c) => child below around name c (node, s)
  | some (.list slots) => list below around name slots (node, s)
  | _ => .ok () (node, s)

/-- Sweep the fields of a node, in the order of its kind. -/
def fields (below : Surroundings → Walk σ Settled) (around : Surroundings) : Walk σ Unit :=
  fun (node, s) => node.kind.fields.forM (field below around) (node, s)

/-- Let the hook of a position act on its node, if there is one. What it decides is final. -/
def leave (v : Visitor σ η) (around : Surroundings) : Option η → Walk σ Settled
  | none => pure .keep
  | some hook => do
    let (outcome, _) ← act around (v.leave hook)
    match outcome with
    | .kept | .replaced => pure .keep
    | .removed => pure .remove
    | .spliced nodes => pure (.flatten nodes)

/-- Sweep a node and, at most `levels` levels deep, what is below it. -/
def node (v : Visitor σ η) : Nat → Surroundings → Walk σ Settled
  | 0, _ => throw .tooDeep
  | levels + 1, around => do
    let (outcome, hook) ← act around v.enter
    match outcome with
    | .removed => pure .remove
    | .spliced nodes => pure (.flatten nodes)
    | .replaced => leave v around hook
    | .kept =>
      fields (node v levels) around
      leave v around hook

end Sweep

/-- Sweep a tree. -/
def Visitor.sweep (v : Visitor σ η) (levels : Nat) (tree : Node) (state : σ) : Walked σ :=
  match Sweep.node v levels [] (tree, state) with
  | .ok _ (tree, state) => ⟨tree, state, none⟩
  | .error stop (tree, state) => ⟨tree, state, some stop⟩

namespace Sweep

/-! ### The simulation

A walk on a whole tree and a sweep of the node in a slot *agree* if the walk does to the tree what the
sweep does to the node, and to nothing else in the tree. -/

/-- What a sweep of the node in a slot comes to in the whole tree. -/
def inside (around : Surroundings) :
    EStateM.Result Stop (Node × σ) α → EStateM.Result Stop (Node × σ) α
  | .ok a (n, s) => .ok a (around.wrap n, s)
  | .error stop (n, s) => .error stop (around.wrap n, s)

/-- The walk does to the whole tree what the sweep does to the node in the slot. -/
def Agree (around : Surroundings) (walk sweep : Walk σ α) : Prop :=
  ∀ n s, walk (around.wrap n, s) = inside around (sweep (n, s))

theorem Agree.pure (around : Surroundings) (a : α) :
    Agree around (pure a : Walk σ α) (pure a) := fun _ _ => rfl

theorem Agree.throw (around : Surroundings) (stop : Stop) :
    Agree around (throw stop : Walk σ α) (throw stop) := fun _ _ => rfl

theorem Agree.bind {around : Surroundings} {walk sweep : Walk σ α} {next next' : α → Walk σ β}
    (h : Agree around walk sweep) (hnext : ∀ a, Agree around (next a) (next' a)) :
    Agree around (walk >>= next) (sweep >>= next') := by
  intro n s
  show EStateM.bind walk next _ = inside around (EStateM.bind sweep next' _)
  simp only [EStateM.bind, h n s]
  cases sweep (n, s) with
  | ok a left =>
      obtain ⟨n', s'⟩ := left
      exact hnext a n' s'
  | error stop left => rfl

/-- A walk that reads the node at the slot goes on with the node in it. -/
theorem nodeAt_wrap {around : Surroundings} (ho : around.Open) (next : Node → Walk σ α) (n : Node)
    (s : σ) :
    (Walk.nodeAt around.path >>= next) (around.wrap n, s) = next n (around.wrap n, s) := by
  have hread : (Walk.nodeAt around.path : Walk σ Node) (around.wrap n, s)
      = .ok n (around.wrap n, s) := by
    unfold Walk.nodeAt
    show EStateM.bind (fun state => .ok state state) _ _ = _
    simp only [EStateM.bind, Surroundings.at?_path ho]
    rfl
  show EStateM.bind _ next _ = _
  simp only [EStateM.bind, hread]

theorem agree_act {around : Surroundings} (ho : around.Open) (action : Action σ η Unit) :
    Agree around (Walk.act around.path action) (act around action) := by
  intro n s
  simp only [Walk.act, act, Surroundings.detach_wrap ho]
  cases action ({ root := around.root, path := around.path, node := n }, s) with
  | ok a left => simp only [inside, Surroundings.attach_root ho]
  | error e left => simp only [inside, Surroundings.attach_root ho]

theorem leave_some (v : Visitor σ η) (around : Surroundings) (hook : η) :
    leave v around (some hook)
      = act around (v.leave hook) >>= fun (outcome, _) => pure outcome.settle := by
  refine congrArg (act around (v.leave hook) >>= ·) (funext fun (outcome, _) => ?_)
  cases outcome <;> rfl

theorem agree_leave {around : Surroundings} (ho : around.Open) (v : Visitor σ η)
    (hook : Option η) :
    Agree around (Visitor.walk.finish v around.path hook) (leave v around hook) := by
  cases hook with
  | none => exact .pure around _
  | some hook =>
      rw [leave_some]
      exact (agree_act ho _).bind fun _ => .pure around _

/-! ### Fields -/

/-- The slot of a child that was taken out of its field. -/
theorem open_child {n c : Node} {field : String} (h : n.get? field = some (.child c)) :
    Frame.Open ⟨n.set field (.value .null), ⟨field, none⟩⟩ :=
  ⟨n, c, Node.child?_eq_some_iff.mpr h, rfl⟩

/-- The slot of a child that was taken out of a list. -/
theorem open_slot (n c : Node) (field : String) (done rest : List (Option Node)) :
    Frame.Open ⟨n.set field (.list (done ++ none :: rest)), ⟨field, some done.length⟩⟩ := by
  refine ⟨n.set field (.list (done ++ some c :: rest)), c, ?_, ?_⟩
  · exact Node.step?_slot_eq_some_iff.mpr ⟨_, Node.get?_set_self .., by simp⟩
  · have hslots : (n.set field (.list (done ++ some c :: rest))).slots? field
        = some (done ++ some c :: rest) := Node.slots?_eq_some_iff.mpr (Node.get?_set_self ..)
    simp [Node.fill, hslots]

theorem fill_slot (n m : Node) (field : String) (done rest : List (Option Node)) :
    (n.set field (.list (done ++ none :: rest))).fill ⟨field, some done.length⟩ (some m)
      = n.set field (.list (done ++ some m :: rest)) := by
  have hslots : (n.set field (.list (done ++ none :: rest))).slots? field
      = some (done ++ none :: rest) := Node.slots?_eq_some_iff.mpr (Node.get?_set_self ..)
  simp [Node.fill, hslots]

/-- What the two sides are allowed to assume of each other one level below. -/
def AgreeBelow (walk : Path → Walk σ Settled) (sweep : Surroundings → Walk σ Settled) : Prop :=
  ∀ around : Surroundings, around.Open → Agree around (walk around.path) (sweep around)

theorem agree_child {walk : Path → Walk σ Settled} {sweep : Surroundings → Walk σ Settled}
    (hbelow : AgreeBelow walk sweep) {around : Surroundings} (ho : around.Open) {n c : Node}
    {name : String} (h : n.get? name = some (.child c)) (s : σ) :
    Walk.single walk around.path name (around.wrap n, s)
      = inside around (child sweep around name c (n, s)) := by
  let frame : Frame := ⟨n.set name (.value .null), ⟨name, none⟩⟩
  have hopen : Surroundings.Open (frame :: around) := .cons (open_child h) ho
  -- The tree does not change when the child is looked at as the node in a slot of its own.
  have hwrap : ∀ m, Surroundings.wrap (frame :: around) m = around.wrap (n.set name (.child m)) := by
    intro m
    show around.wrap ((n.set name (.value .null)).set name (.child m)) = _
    rw [Node.set_set]
  have hstep : walk (around.path ++ [⟨name, none⟩]) (around.wrap n, s)
      = inside (frame :: around) (sweep (frame :: around) (c, s)) := by
    have hsame := hbelow (frame :: around) hopen c s
    rw [hwrap, Node.set_eq_self h, Surroundings.path_cons] at hsame
    exact hsame
  show EStateM.bind (walk (around.path ++ [⟨name, none⟩])) _ _ = _
  simp only [EStateM.bind, child, hstep]
  cases sweep (frame :: around) (c, s) with
  | error stop left => simp only [inside, hwrap]
  | ok settled left =>
      obtain ⟨c', s'⟩ := left
      cases settled with
      | keep => simp only [inside, hwrap]; rfl
      | flatten nodes => simp only [inside, hwrap]; rfl
      | remove =>
          show EStateM.Result.ok () ((Surroundings.wrap _ c').modifyAt _ around.path, s') = _
          rw [hwrap, Surroundings.modifyAt_path ho, Node.erase_set]
          rfl

/-! ### Lists -/

theorem walkSlots_hole (walk : Path → Walk σ Settled) (path : Path) (name : String) (i : Nat)
    (occupied : List Bool) :
    Walk.slots walk path name i (false :: occupied)
      = (Settled.keep :: ·) <$> Walk.slots walk path name (i + 1) occupied := rfl

theorem walkSlots_node (walk : Path → Walk σ Settled) (path : Path) (name : String) (i : Nat)
    (occupied : List Bool) :
    Walk.slots walk path name i (true :: occupied)
      = walk (path ++ [⟨name, some i⟩]) >>= fun fate =>
          (fate :: ·) <$> Walk.slots walk path name (i + 1) occupied := rfl

theorem piece_eq (child : Node) (fate : Settled) : piece child fate = fate.slots (some child) := by
  cases fate <;> rfl

/-- What a walk over slots collects stands for what a sweep of them makes: the same slots are left, and
the pieces are what the fates make of the slots behind those that are `done`. -/
def SlotsAgree (around : Surroundings) (n : Node) (name : String) (done : List (Option Node))
    (walked : EStateM.Result Stop (Node × σ) (List Settled)) : SlotsSwept σ → Prop
  | .ok pieces (left, s) => ∃ fates rest,
      walked = .ok fates (around.wrap (n.set name (.list left)), s) ∧ left = done ++ rest ∧
        rest.length = fates.length ∧
        pieces = (rest.zip fates).map fun (slot, fate) => fate.slots slot
  | .error stop (left, s) => walked = .error stop (around.wrap (n.set name (.list left)), s)

theorem SlotsAgree.cons {around : Surroundings} {n : Node} {name : String}
    {done : List (Option Node)} {walk : Walk σ (List Settled)} {x : Node × σ}
    {swept : SlotsSwept σ} (slot : Option Node) (fate : Settled)
    (h : SlotsAgree around n name (done ++ [slot]) (walk x) swept) :
    SlotsAgree around n name done (((fate :: ·) <$> walk) x)
      (withPiece (fate.slots slot) swept) := by
  cases swept with
  | error stop left =>
      have hwalk : walk x = .error stop _ := h
      show EStateM.map _ walk x = _
      simp only [EStateM.map, hwalk]
  | ok pieces left =>
      obtain ⟨fates, rest, hwalk, hleft, hlength, hpieces⟩ := h
      refine ⟨fate :: fates, slot :: rest, ?_, ?_, ?_, ?_⟩
      · show EStateM.map _ walk x = _
        simp only [EStateM.map, hwalk]
      · rw [hleft, List.append_assoc]
        rfl
      · rw [List.length_cons, List.length_cons, hlength]
      · rw [hpieces]
        rfl

theorem slotsAgree_slots {walk : Path → Walk σ Settled} {sweep : Surroundings → Walk σ Settled}
    (hbelow : AgreeBelow walk sweep) {around : Surroundings} (ho : around.Open) (n : Node)
    (name : String) (done rest : List (Option Node)) (s : σ) :
    SlotsAgree around n name done
      (Walk.slots walk around.path name done.length (rest.map Option.isSome)
        (around.wrap (n.set name (.list (done ++ rest))), s))
      (slots sweep around n name done rest s) := by
  -- The slots that are done stay at their indices, so that the next one has the index `done.length`.
  induction rest generalizing done s with
  | nil =>
      rw [List.append_nil]
      exact ⟨[], [], rfl, (List.append_nil done).symm, rfl, rfl⟩
  | cons slot rest ih =>
      cases slot with
      | none =>
          have hrest := ih (done ++ [none]) s
          rw [List.append_assoc, List.length_append] at hrest
          rw [List.map_cons, Option.isSome_none, walkSlots_hole]
          exact hrest.cons none .keep
      | some c =>
          -- The child is the node of a position one level below, with the slots around it as they are now.
          let frame : Frame :=
            ⟨n.set name (.list (done ++ none :: rest)), ⟨name, some done.length⟩⟩
          have hopen : Surroundings.Open (frame :: around) := .cons (open_slot n c name done rest) ho
          have hwrap : ∀ m, Surroundings.wrap (frame :: around) m
              = around.wrap (n.set name (.list (done ++ some m :: rest))) := by
            intro m
            exact congrArg around.wrap (fill_slot n m name done rest)
          have hstep : walk (around.path ++ [⟨name, some done.length⟩])
              (around.wrap (n.set name (.list (done ++ some c :: rest))), s)
              = inside (frame :: around) (sweep (frame :: around) (c, s)) := by
            have hsame := hbelow (frame :: around) hopen c s
            rw [hwrap, Surroundings.path_cons] at hsame
            exact hsame
          rw [List.map_cons, Option.isSome_some, walkSlots_node]
          show SlotsAgree _ _ _ _ (EStateM.bind _ _ _) _
          simp only [EStateM.bind, slots, hstep]
          cases sweep (frame :: around) (c, s) with
          | error stop left =>
              obtain ⟨c', s'⟩ := left
              simp only [inside, hwrap, SlotsAgree]
          | ok fate left =>
              obtain ⟨c', s'⟩ := left
              have hrest := ih (done ++ [some c']) s'
              rw [List.append_assoc, List.length_append] at hrest
              simp only [inside, hwrap, piece_eq]
              exact hrest.cons (some c') fate

/-- A list whose slots are all kept is rebuilt as it was. -/
theorem compactSlots_of_keep {slots : List (Option Node)} {fates : List Settled}
    (hlength : slots.length = fates.length) (hkeep : fates.all Settled.isKeep = true) :
    compactSlots slots fates = slots := by
  induction slots generalizing fates with
  | nil => rfl
  | cons slot slots ih =>
      cases fates with
      | nil => simp at hlength
      | cons fate fates =>
          rw [List.all_cons, Bool.and_eq_true] at hkeep
          have hrest := ih (Nat.succ.inj hlength) hkeep.2
          cases fate with
          | keep => exact congrArg (slot :: ·) hrest
          | remove => cases hkeep.1
          | flatten nodes => cases hkeep.1

/-- What a walk does to a list once the fates of its slots are known. -/
def rebuild (path : Path) (name : String) (fates : List Settled) : Walk σ Unit := do
  unless fates.all Settled.isKeep do
    match (← Walk.nodeAt path).slots? name with
    | some slots => Walk.updateAt path (·.set name (.list (compactSlots slots fates)))
    | none => throw (.failed (.edit .lostPosition))

theorem walkList_eq (walk : Path → Walk σ Settled) (path : Path) (name : String)
    (occupied : List Bool) :
    Walk.list walk path name occupied
      = Walk.slots walk path name 0 occupied >>= rebuild path name := rfl

/-- Rebuilding finds the list where it was left, and puts the pieces in its place. -/
theorem rebuild_wrap {around : Surroundings} (ho : around.Open) (n : Node) (name : String)
    {left : List (Option Node)} {fates : List Settled} (hlength : left.length = fates.length)
    (s : σ) :
    rebuild around.path name fates (around.wrap (n.set name (.list left)), s)
      = .ok () (around.wrap (n.set name (.list (compactSlots left fates))), s) := by
  unfold rebuild
  by_cases hkeep : fates.all Settled.isKeep = true
  · rw [if_pos hkeep, compactSlots_of_keep hlength hkeep]
    rfl
  · rw [if_neg hkeep]
    have hfield : (n.set name (.list left)).slots? name = some left :=
      Node.slots?_eq_some_iff.mpr (Node.get?_set_self ..)
    rw [nodeAt_wrap ho, hfield]
    show EStateM.Result.ok () ((around.wrap _).modifyAt _ around.path, s) = _
    rw [Surroundings.modifyAt_path ho, Node.set_set]

theorem agree_list {walk : Path → Walk σ Settled} {sweep : Surroundings → Walk σ Settled}
    (hbelow : AgreeBelow walk sweep) {around : Surroundings} (ho : around.Open) {n : Node}
    {name : String} {slots : List (Option Node)} (h : n.get? name = some (.list slots)) (s : σ) :
    Walk.list walk around.path name (slots.map Option.isSome) (around.wrap n, s)
      = inside around (list sweep around name slots (n, s)) := by
  have hslots := slotsAgree_slots hbelow ho n name [] slots s
  rw [List.nil_append, Node.set_eq_self h, List.length_nil] at hslots
  rw [walkList_eq]
  show EStateM.bind _ _ _ = _
  simp only [EStateM.bind, list]
  cases hswept : Sweep.slots sweep around n name [] slots s with
  | error stop left =>
      rw [hswept] at hslots
      have hwalk : Walk.slots walk around.path name 0 _ _ = .error stop _ := hslots
      rw [hwalk]
      rfl
  | ok pieces left =>
      obtain ⟨left, s'⟩ := left
      rw [hswept] at hslots
      obtain ⟨fates, rest, hwalk, hleft, hlength, hpieces⟩ := hslots
      rw [List.nil_append] at hleft
      subst hleft
      -- Both sides make one piece of each slot and put them in a row.
      have hflat : compactSlots left fates = pieces.flatten := by
        rw [hpieces, compactSlots, List.flatMap_def]
      rw [hwalk]
      show rebuild around.path name fates _ = _
      rw [rebuild_wrap ho n name hlength, hflat]
      rfl

theorem agree_field {walk : Path → Walk σ Settled} {sweep : Surroundings → Walk σ Settled}
    (hbelow : AgreeBelow walk sweep) {around : Surroundings} (ho : around.Open) (name : String) :
    Agree around (Walk.field walk around.path name) (field sweep around name) := by
  intro n s
  unfold Walk.field
  rw [nodeAt_wrap ho, field]
  cases hget : n.get? name with
  | none => rfl
  | some content =>
      cases content with
      | value json => rfl
      | child c => exact agree_child hbelow ho hget s
      | list slots => exact agree_list hbelow ho hget s

theorem agree_forM {around : Surroundings} {walk sweep : String → Walk σ Unit}
    (h : ∀ name, Agree around (walk name) (sweep name)) (names : List String) :
    Agree around (names.forM walk) (names.forM sweep) := by
  induction names with
  | nil => exact .pure around ()
  | cons name names ih => exact (h name).bind fun _ => ih

theorem agree_fields {walk : Path → Walk σ Settled} {sweep : Surroundings → Walk σ Settled}
    (hbelow : AgreeBelow walk sweep) {around : Surroundings} (ho : around.Open) :
    Agree around (Walk.children walk around.path) (fields sweep around) := by
  intro n s
  unfold Walk.children
  rw [nodeAt_wrap ho]
  exact agree_forM (agree_field hbelow ho) n.kind.fields n s

/-! ### The refinement -/

/-- The walk from a position on agrees with the sweep of its node, however deep the two may go. -/
theorem agree_node (v : Visitor σ η) (levels : Nat) : AgreeBelow (v.walk levels) (node v levels) := by
  induction levels with
  | zero => exact fun around _ => .throw around _
  | succ levels ih =>
      intro around ho
      apply (agree_act ho v.enter).bind
      rintro ⟨outcome, hook⟩
      cases outcome with
      | removed => exact .pure around _
      | spliced nodes => exact .pure around _
      | replaced => exact agree_leave ho v hook
      | kept => exact (agree_fields ih ho).bind fun _ => agree_leave ho v hook

/-- The two end alike: with the same tree, the same state and for the same reason. -/
theorem run_eq (v : Visitor σ η) (levels : Nat) (tree : Node) (state : σ) :
    v.run levels tree state = v.sweep levels tree state := by
  have hroot : v.walk levels [] (tree, state) = inside [] (node v levels [] (tree, state)) :=
    agree_node v levels [] (fun _ h => nomatch h) tree state
  unfold Visitor.run Visitor.sweep
  rw [hroot]
  cases node v levels [] (tree, state) <;> rfl

/-! ### The bound on the depth

The number of levels is not part of what a walk means. A walk that was not stopped by it does the same
under any greater number. -/

/-- The first walk does what the second does, or is stopped by its depth. -/
def Within (shallow deep : Walk σ α) : Prop :=
  ∀ x, shallow x = deep x ∨ ∃ left, shallow x = .error .tooDeep left

theorem Within.refl (walk : Walk σ α) : Within walk walk := fun _ => .inl rfl

theorem Within.bind {shallow deep : Walk σ α} {next next' : α → Walk σ β}
    (h : Within shallow deep) (hnext : ∀ a, Within (next a) (next' a)) :
    Within (shallow >>= next) (deep >>= next') := by
  intro x
  show EStateM.bind shallow next x = EStateM.bind deep next' x ∨
    ∃ left, EStateM.bind shallow next x = .error .tooDeep left
  simp only [EStateM.bind]
  rcases h x with heq | ⟨left, hdeep⟩
  · rw [heq]
    cases deep x with
    | ok a left => exact hnext a left
    | error stop left => exact .inl rfl
  · rw [hdeep]
    exact .inr ⟨left, rfl⟩

section

variable {shallow deep : Path → Walk σ Settled} (h : ∀ path, Within (shallow path) (deep path))
include h

theorem within_single (path : Path) (name : String) :
    Within (Walk.single shallow path name) (Walk.single deep path name) :=
  (h _).bind fun _ => .refl _

theorem within_slots (path : Path) (name : String) (i : Nat) (occupied : List Bool) :
    Within (Walk.slots shallow path name i occupied) (Walk.slots deep path name i occupied) := by
  induction occupied generalizing i with
  | nil => exact .refl _
  | cons present occupied ih =>
      cases present with
      | false => exact (Within.refl _).bind fun _ => (ih (i + 1)).bind fun _ => .refl _
      | true => exact (h _).bind fun _ => (ih (i + 1)).bind fun _ => .refl _

theorem within_field (path : Path) (name : String) :
    Within (Walk.field shallow path name) (Walk.field deep path name) := by
  apply (Within.refl _).bind
  intro n
  cases n.get? name with
  | none => exact .refl _
  | some content =>
      cases content with
      | value json => exact .refl _
      | child c => exact within_single h path name
      | list slots => exact (within_slots h path name 0 _).bind fun _ => .refl _

theorem within_children (path : Path) :
    Within (Walk.children shallow path) (Walk.children deep path) := by
  apply (Within.refl _).bind
  intro n
  induction n.kind.fields with
  | nil => exact .refl _
  | cons name names ih => exact (within_field h path name).bind fun _ => ih

end

theorem within_walk (v : Visitor σ η) (levels : Nat) (path : Path) :
    Within (v.walk levels path) (v.walk (levels + 1) path) := by
  induction levels generalizing path with
  | zero => exact fun x => .inr ⟨x, rfl⟩
  | succ levels ih =>
      apply (Within.refl _).bind
      rintro ⟨outcome, hook⟩
      cases outcome with
      | removed => exact .refl _
      | spliced nodes => exact .refl _
      | replaced => exact .refl _
      | kept => exact (within_children ih path).bind fun _ => .refl _

/-- A walk that its depth did not stop does the same one level deeper. -/
theorem run_succ (v : Visitor σ η) (levels : Nat) (tree : Node) (state : σ)
    (h : (v.run levels tree state).stop ≠ some .tooDeep) :
    v.run (levels + 1) tree state = v.run levels tree state := by
  unfold Visitor.run at h ⊢
  rcases within_walk v levels [] (tree, state) with heq | ⟨left, hdeep⟩
  · rw [heq]
  · rw [hdeep] at h
    exact absurd rfl h

theorem run_add (v : Visitor σ η) (levels : Nat) (tree : Node) (state : σ)
    (h : (v.run levels tree state).stop ≠ some .tooDeep) (more : Nat) :
    v.run (levels + more) tree state = v.run levels tree state := by
  induction more with
  | zero => rfl
  | succ more ih =>
      rw [← Nat.add_assoc, run_succ v (levels + more) tree state (by rw [ih]; exact h), ih]

end Sweep

/-- **The walk refines the recursion on nodes.** Finding every position by its path from the root, taking
its node out and putting it back, loses no position and moves none: for every visitor and every tree the
walk ends with the tree, the state and the error of the sweep. The number of levels only decides
whether the walk gets to its end. -/
theorem Visitor.run_eq_sweep (v : Visitor σ η) (levels : Nat) (tree : Node) (state : σ) :
    v.run levels tree state = v.sweep levels tree state ∧
      ((v.run levels tree state).stop = some .tooDeep ∨
        ∀ more, v.run (levels + more) tree state = v.sweep levels tree state) := by
  refine ⟨Sweep.run_eq v levels tree state, ?_⟩
  by_cases h : (v.run levels tree state).stop = some .tooDeep
  · exact .inl h
  · right
    intro more
    rw [Sweep.run_add v levels tree state h more, Sweep.run_eq]

end Minifier
