import Minifier.Proofs.Edit.Sweep
import Minifier.Proofs.Scope.Likeness

/-!
# Walks that edit nothing

A tree is gone through in three ways: by a recursion on nodes (`Node.watched`), by the same recursion with
the chain of ancestors carried along (`Node.chained`), and by the walk, which addresses every position from
the root and takes the node out of the tree while a visitor looks at it. Here they are compared, for a
visitor that edits nothing.

* The two recursions list the nodes of `Node.occurrences`, the second with `Node.ancestors`
  (`watched_eq`, `chained_eq`).
* The calls of a visitor are the *events* of a tree: a node is entered, then come the events of what is below
  it, then it is left (`Occurrence.events`).
* A walk with such a visitor leaves the tree as it is and makes one call for each event, in
  order; a hook that was left behind on entering is called on leaving (`run_eq_observe`).
-/

namespace Minifier

open Node

variable {σ η α β : Type}

/-! ## Watching -/

namespace Node

/-- A node and what is below it, each before what is below it in turn. -/
def watched (n : Node) : List Node :=
  n :: n.visited.attach.flatMap fun ⟨edge, _⟩ => edge.2.watched
termination_by n.size
decreasing_by exact size_visited_lt ‹_›

/-- The same, each with the nodes above it and the steps taken from them, nearest first. -/
def chained (above : List (Node × Step)) (n : Node) : List (Node × List (Node × Step)) :=
  (n, above) :: n.visited.attach.flatMap fun ⟨edge, _⟩ => edge.2.chained ((n, edge.1) :: above)
termination_by n.size
decreasing_by exact size_visited_lt ‹_›

theorem watched_eq_cons (n : Node) : n.watched = n :: n.visited.flatMap fun edge => edge.2.watched := by
  rw [watched]
  simp only [List.flatMap_subtype, List.unattach_attach]

theorem chained_eq_cons (above : List (Node × Step)) (n : Node) :
    n.chained above
      = (n, above) :: n.visited.flatMap fun edge => edge.2.chained ((n, edge.1) :: above) := by
  rw [chained]
  simp only [List.flatMap_subtype, List.unattach_attach]

end Node

/-- The ancestor without its position. -/
def Ancestor.link (a : Ancestor) : Node × Step := (a.node, a.step)

namespace Occurrence

theorem map_node_below (o : Occurrence) : o.below.map (·.node) = o.node.watched := by
  induction o using visited_induction with
  | step o ih =>
      rw [below_eq, watched_eq_cons, List.map_cons, List.map_flatMap, visited, List.flatMap_map]
      congr 1
      apply List.flatMap_congr
      intro edge hedge
      exact ih (o.along edge) (List.mem_map_of_mem hedge)

theorem map_ancestors_below {t : Node} {o : Occurrence} (ho : t.Holds o) :
    o.below.map (fun x => (x.node, (t.ancestors x.path).map Ancestor.link))
      = o.node.chained ((t.ancestors o.path).map Ancestor.link) := by
  induction o using visited_induction with
  | step o ih =>
      rw [below_eq, chained_eq_cons, List.map_cons, List.map_flatMap, visited, List.flatMap_map]
      congr 1
      apply List.flatMap_congr
      intro edge hedge
      have hmem : o.along edge ∈ o.visited := List.mem_map_of_mem hedge
      rw [ih (o.along edge) hmem ((contains_of_mem_visited hmem).holds ho)]
      show edge.2.chained ((t.ancestors (o.path ++ [edge.1])).map Ancestor.link) = _
      rw [ancestors_concat ho]
      rfl

end Occurrence

/-- Watching lists the nodes of a traversal. -/
theorem watched_eq (t : Node) : t.watched = t.occurrences.map (·.node) :=
  (Occurrence.map_node_below ⟨[], t⟩).symm

/-- Watching with ancestors lists them with what lies above them. -/
theorem chained_eq (t : Node) :
    t.chained [] = t.occurrences.map fun o => (o.node, (t.ancestors o.path).map Ancestor.link) :=
  (Occurrence.map_ancestors_below (t := t) (o := ⟨[], t⟩) rfl).symm

/-! ## Events -/

/-- A call of a visitor: on entering a node, or on leaving it. -/
inductive Event where
  | enter (o : Occurrence)
  | leave (o : Occurrence)

namespace Event

/-- The position of the node. -/
def path : Event → Path
  | enter o => o.path
  | leave o => o.path

/-- The node that is entered. -/
def entered? : Event → Option Occurrence
  | enter o => some o
  | leave _ => none

end Event

namespace Occurrence

/-- The events of a node and of what is below it. -/
def events (o : Occurrence) : List Event :=
  .enter o :: (o.visited.attach.flatMap fun ⟨child, _⟩ => child.events) ++ [.leave o]
termination_by o.node.size
decreasing_by exact size_visited_lt ‹_›

theorem events_eq (o : Occurrence) :
    o.events = .enter o :: o.visited.flatMap events ++ [.leave o] := by
  rw [events]
  simp only [List.flatMap_subtype, List.unattach_attach]

/-- The nodes are entered in the order of a traversal. -/
theorem entered_events (o : Occurrence) : o.events.filterMap Event.entered? = o.below := by
  induction o using visited_induction with
  | step o ih =>
      rw [events_eq, below_eq, List.cons_append,
        List.filterMap_cons_some (show Event.entered? (.enter o) = some o from rfl),
        List.filterMap_append, List.filterMap_flatMap,
        List.filterMap_cons_none (show Event.entered? (.leave o) = none from rfl), List.filterMap_nil,
        List.append_nil]
      congr 1
      apply List.flatMap_congr
      intro child hchild
      exact ih child hchild

theorem isPrefixOf_of_mem_events {o : Occurrence} {e : Event} (h : e ∈ o.events) : o.path <+: e.path := by
  induction o using visited_induction with
  | step o ih =>
      rw [events_eq, List.mem_append, List.mem_cons, List.mem_flatMap, List.mem_singleton] at h
      rcases h with (rfl | ⟨child, hchild, he⟩) | rfl
      · exact List.prefix_rfl
      · exact (contains_of_mem_visited hchild).isPrefixOf.trans (ih child hchild he)
      · exact List.prefix_rfl

end Occurrence

namespace Occurrence

theorem not_isPrefixOf_of_mem_visited {o c : Occurrence} (h : c ∈ o.visited) : ¬ c.path <+: o.path := by
  obtain ⟨edge, _, rfl⟩ := List.mem_map.mp h
  intro hpre
  have hlength := hpre.length_le
  rw [along, List.length_append, List.length_singleton] at hlength
  omega

/-- Different children of a node have nothing below them in common. -/
theorem not_isPrefixOf_of_visited {o c d : Occurrence} (hc : c ∈ o.visited) (hd : d ∈ o.visited)
    (hne : c.path ≠ d.path) {p : Path} (hp : c.path <+: p) : ¬ d.path <+: p := by
  obtain ⟨_, _, rfl⟩ := List.mem_map.mp hc
  obtain ⟨_, _, rfl⟩ := List.mem_map.mp hd
  intro hp'
  apply hne
  apply (List.prefix_of_prefix_length_le hp hp' ?_).eq_of_length ?_
  · simp [along]
  · simp [along]

theorem nodup_path_visited (o : Occurrence) : (o.visited.map (·.path)).Nodup := by
  have hsteps := nodup_visited o.node
  rw [List.Nodup, List.pairwise_map] at hsteps
  rw [visited, List.map_map, List.Nodup, List.pairwise_map]
  apply hsteps.imp
  intro e f hne heq
  apply hne
  simpa [along] using heq

/-- **Events are nested.** The events of a node and of what is below it stand together, and no other events
are among them. -/
theorem exists_events_eq {o x : Occurrence} (hx : x ∈ o.below) :
    ∃ before after, o.events = before ++ x.events ++ after ∧
      ∀ e ∈ before ++ after, ¬ x.path <+: e.path := by
  induction o using visited_induction with
  | step o ih =>
      rw [below_eq, List.mem_cons, List.mem_flatMap] at hx
      rcases hx with rfl | ⟨child, hchild, hx⟩
      · exact ⟨[], [], by simp, by simp⟩
      · obtain ⟨before, after, hevents, hother⟩ := ih child hchild hx
        obtain ⟨left, right, hsplit⟩ := List.append_of_mem hchild
        have hbelow : child.path <+: x.path := by
          obtain ⟨q, hq, _⟩ := mem_below_iff.mp hx
          exact ⟨q, hq.symm⟩
        -- The events of the node itself are above, and those of its other children beside.
        have habove : ¬ x.path <+: o.path :=
          fun hpre => not_isPrefixOf_of_mem_visited hchild (hbelow.trans hpre)
        have hbeside : ∀ d ∈ left ++ right, ∀ e ∈ d.events, ¬ x.path <+: e.path := by
          intro d hd e he hpre
          have hmem : d ∈ o.visited := by
            rw [hsplit]
            simp only [List.mem_append, List.mem_cons] at hd ⊢
            tauto
          have hne : d.path ≠ child.path := by
            have hnodup := nodup_path_visited o
            rw [hsplit, List.map_append, List.map_cons, List.nodup_middle, List.nodup_cons] at hnodup
            intro heq
            apply hnodup.1
            rw [← heq, ← List.map_append]
            exact List.mem_map_of_mem hd
          exact not_isPrefixOf_of_visited hmem hchild hne (isPrefixOf_of_mem_events he)
            (hbelow.trans hpre)
        refine ⟨.enter o :: left.flatMap events ++ before,
          after ++ right.flatMap events ++ [.leave o], ?_, ?_⟩
        · rw [events_eq, hsplit, List.flatMap_append, List.flatMap_cons, hevents]
          simp only [List.cons_append, List.append_assoc]
        · intro e he
          simp only [List.cons_append, List.append_assoc, List.mem_cons, List.mem_append,
            List.mem_flatMap, List.not_mem_nil, or_false] at he
          rcases he with rfl | ⟨d, hd, he⟩ | he | he | ⟨d, hd, he⟩ | rfl
          · exact habove
          · exact hbeside d (List.mem_append_left _ hd) e he
          · exact hother e (List.mem_append_left _ he)
          · exact hother e (List.mem_append_right _ he)
          · exact hbeside d (List.mem_append_right _ hd) e he
          · exact habove

/-- What happens between entering and leaving a node happens below it. -/
theorem below_of_mem_flatMap_events {o : Occurrence} {e : Event} (h : e ∈ o.visited.flatMap events) :
    o.path <+: e.path ∧ e.path ≠ o.path := by
  obtain ⟨child, hchild, he⟩ := List.mem_flatMap.mp h
  have hpre := isPrefixOf_of_mem_events he
  refine ⟨(contains_of_mem_visited hchild).isPrefixOf.trans hpre, fun heq => ?_⟩
  exact not_isPrefixOf_of_mem_visited hchild (heq ▸ hpre)

end Occurrence

/-- The events of a tree. -/
def Node.events (t : Node) : List Event := Occurrence.events ⟨[], t⟩

/-! ## Visitors that edit nothing -/

/-- The action leaves the node as it is, also if it fails, and decides nothing. -/
def Action.ReadOnly (action : Action σ η Unit) : Prop :=
  ∀ (c : Cursor η) (s : σ), c.outcome = .kept →
    match action (c, s) with
    | .ok _ (c', _) => c'.node = c.node ∧ c'.outcome = .kept
    | .error _ (c', _) => c'.node = c.node

/-- The visitor and its hooks edit nothing. -/
structure Visitor.ReadOnly (v : Visitor σ η) : Prop where
  enter : v.enter.ReadOnly
  leave : ∀ hook, (v.leave hook).ReadOnly

/-- The view of a position of a tree, before a visitor acts on it. -/
def Node.cursorAt (η : Type) (t : Node) (o : Occurrence) : Cursor η :=
  { root := ((t.detach o.path).map (·.2)).getD t, path := o.path, node := o.node }

/-- What a visitor goes through: the hooks of the nodes that it has entered and not left, nearest first, and
its state. -/
abbrev Observing (σ η : Type) := EStateM Stop (List (Option η) × σ)

/-- Call a visitor for an event of a tree. -/
def Visitor.call (v : Visitor σ η) (t : Node) : Event → Observing σ η Unit
  | .enter o => fun (hooks, s) =>
    match v.enter (t.cursorAt η o, s) with
    | .ok _ (c, s) => .ok () (c.hook :: hooks, s)
    | .error error (_, s) => .error (.failed error) (hooks, s)
  | .leave o => fun (hooks, s) =>
    match hooks.head?.join with
    | none => .ok () (hooks.tail, s)
    | some hook =>
      match v.leave hook (t.cursorAt η o, s) with
      | .ok _ (_, s) => .ok () (hooks.tail, s)
      | .error error (_, s) => .error (.failed error) (hooks.tail, s)

/-- Call a visitor for some events of a tree in order, until it fails. -/
def Visitor.calls (v : Visitor σ η) (t : Node) : List Event → Observing σ η Unit
  | [] => pure ()
  | event :: events => do
    v.call t event
    v.calls t events

/-- Call a visitor for all events of a tree. -/
def Visitor.observe (v : Visitor σ η) (t : Node) (state : σ) : Walked σ :=
  match v.calls t t.events ([], state) with
  | .ok _ (_, state) => ⟨t, state, none⟩
  | .error stop (_, state) => ⟨t, state, some stop⟩

theorem Visitor.calls_append (v : Visitor σ η) (t : Node) (events events' : List Event) :
    v.calls t (events ++ events') = v.calls t events >>= fun _ => v.calls t events' := by
  induction events with
  | nil => rfl
  | cons event events ih =>
      rw [List.cons_append, calls, calls, ih, bind_assoc]

/-! ## The walk makes the calls -/

/-- The sweep leaves the node as it is, gives `a` and ends like the calls, which leave the hooks as they
found them; or both stop alike. -/
inductive Mirrors (n : Node) (hooks : List (Option η)) (a : α) :
    EStateM.Result Stop (Node × σ) α → EStateM.Result Stop (List (Option η) × σ) Unit → Prop
  | done (s : σ) : Mirrors n hooks a (.ok a (n, s)) (.ok () (hooks, s))
  | stopped (stop : Stop) (s : σ) (left : List (Option η)) :
      Mirrors n hooks a (.error stop (n, s)) (.error stop (left, s))

theorem Mirrors.bind {n : Node} {first hooks last : List (Option η)} {a : α} {b : β}
    {sweep : Walk σ α} {next : α → Walk σ β} {calls calls' : Observing σ η Unit} {s : σ}
    (h : Mirrors n hooks a (sweep (n, s)) (calls (first, s)))
    (hnext : ∀ s, Mirrors n last b (next a (n, s)) (calls' (hooks, s))) :
    Mirrors n last b ((sweep >>= next) (n, s)) ((calls >>= fun _ => calls') (first, s)) := by
  show Mirrors n last b (EStateM.bind sweep next (n, s))
    (EStateM.bind calls (fun _ => calls') (first, s))
  unfold EStateM.bind
  cases hsweep : sweep (n, s) <;> cases hcalls : calls (first, s) <;> rw [hsweep, hcalls] at h
  all_goals cases h
  · exact hnext _
  · exact .stopped ..

namespace Sweep

variable {v : Visitor σ η} {below : Surroundings → Walk σ Settled} {levels : Nat}
  {around : Surroundings} {n : Node} {name : String}

/-- A sweep of a node that is not too deep keeps it and makes the calls for its events. -/
def Observes (v : Visitor σ η) (levels : Nat) (below : Surroundings → Walk σ Settled) : Prop :=
  ∀ around : Surroundings, around.Open → ∀ n s hooks, n.size ≤ levels →
    Mirrors n hooks Settled.keep (below around (n, s))
      (v.calls (around.wrap n) (Occurrence.events ⟨around.path, n⟩) (hooks, s))

theorem mirrors_child (hbelow : Observes v levels below) (ho : around.Open) {c : Node}
    (h : n.get? name = some (.child c)) (hsize : c.size ≤ levels) (s : σ) (hooks : List (Option η)) :
    Mirrors n hooks () (child below around name c (n, s))
      (v.calls (around.wrap n) (Occurrence.events ⟨around.path ++ [⟨name, none⟩], c⟩)
        (hooks, s)) := by
  let frame : Frame := ⟨n.set name (.value .null), ⟨name, none⟩⟩
  have hopen : Surroundings.Open (frame :: around) := .cons (open_child h) ho
  have hwrap : Surroundings.wrap (frame :: around) c = around.wrap n := by
    show around.wrap ((n.set name (.value .null)).set name (.child c)) = _
    rw [set_set, set_eq_self h]
  have hmirrors := hbelow (frame :: around) hopen c s hooks hsize
  rw [hwrap, Surroundings.path_cons] at hmirrors
  simp only [child]
  generalize below (frame :: around) (c, s) = swept at hmirrors ⊢
  generalize v.calls _ _ (hooks, s) = calls at hmirrors ⊢
  -- The child comes back as it was, and so the node is what it was.
  cases hmirrors with
  | done s =>
      simp only [set_eq_self h]
      exact .done s
  | stopped stop s left =>
      simp only [set_eq_self h]
      exact .stopped stop s left

/-- The sweep leaves all slots as they are and makes one piece of each, or both stop alike. -/
inductive SlotsMirror (slots rest : List (Option Node)) (hooks : List (Option η)) :
    SlotsSwept σ → EStateM.Result Stop (List (Option η) × σ) Unit → Prop
  | done (s : σ) : SlotsMirror slots rest hooks (.ok (rest.map fun slot => [slot]) (slots, s))
      (.ok () (hooks, s))
  | stopped (stop : Stop) (s : σ) (left : List (Option η)) :
      SlotsMirror slots rest hooks (.error stop (slots, s)) (.error stop (left, s))

theorem SlotsMirror.cons {slots rest : List (Option Node)} {hooks : List (Option η)}
    {swept : SlotsSwept σ} {calls : EStateM.Result Stop (List (Option η) × σ) Unit}
    (h : SlotsMirror slots rest hooks swept calls) (slot : Option Node) :
    SlotsMirror slots (slot :: rest) hooks (withPiece [slot] swept) calls := by
  cases h with
  | done s => exact .done s
  | stopped stop s left => exact .stopped stop s left

/-- The nodes in the slots of a list, from an index on. -/
def occupants (path : Path) (name : String) (start : Nat) (slots : List (Option Node)) :
    List Occurrence :=
  (slots.zipIdx start).filterMap fun (slot, i) =>
    slot.map fun c => Occurrence.mk (path ++ [⟨name, some i⟩]) c

theorem slotsMirror_slots (hbelow : Observes v levels below) (ho : around.Open)
    (done rest : List (Option Node)) (h : n.get? name = some (.list (done ++ rest)))
    (hsize : ∀ c, some c ∈ rest → c.size ≤ levels) (s : σ) (hooks : List (Option η)) :
    SlotsMirror (done ++ rest) rest hooks (slots below around n name done rest s)
      (v.calls (around.wrap n)
        ((occupants around.path name done.length rest).flatMap Occurrence.events) (hooks, s)) := by
  induction rest generalizing done s with
  | nil =>
      rw [List.append_nil]
      exact .done s
  | cons slot rest ih =>
      have hrest : ∀ c, some c ∈ rest → c.size ≤ levels :=
        fun c hc => hsize c (List.mem_cons_of_mem _ hc)
      cases slot with
      | none =>
          have hmirror := ih (done ++ [none]) (by simpa using h) hrest s
          simp only [List.append_assoc, List.singleton_append, List.length_append,
            List.length_singleton] at hmirror
          exact hmirror.cons none
      | some c =>
          let frame : Frame :=
            ⟨n.set name (.list (done ++ none :: rest)), ⟨name, some done.length⟩⟩
          have hopen : Surroundings.Open (frame :: around) := .cons (open_slot n c name done rest) ho
          have hwrap : Surroundings.wrap (frame :: around) c = around.wrap n := by
            show around.wrap ((n.set name _).fill ⟨name, some done.length⟩ (some c)) = _
            rw [fill_slot, set_eq_self h]
          have hmirrors := hbelow (frame :: around) hopen c s hooks (hsize c List.mem_cons_self)
          rw [hwrap, Surroundings.path_cons] at hmirrors
          have hevents : (occupants around.path name done.length (some c :: rest)).flatMap
              Occurrence.events
                = Occurrence.events ⟨around.path ++ [⟨name, some done.length⟩], c⟩
                  ++ (occupants around.path name (done.length + 1) rest).flatMap
                      Occurrence.events := rfl
          rw [hevents, v.calls_append]
          show SlotsMirror _ _ _ _ (EStateM.bind _ _ _)
          simp only [slots, EStateM.bind]
          generalize below (frame :: around) (c, s) = swept at hmirrors ⊢
          generalize v.calls _ (Occurrence.events _) (hooks, s) = calls at hmirrors ⊢
          cases hmirrors with
          | stopped stop s left => exact .stopped stop s left
          | done s =>
              have hmirror := ih (done ++ [some c]) (by simpa using h) hrest s
              simp only [List.append_assoc, List.singleton_append, List.length_append,
                List.length_singleton] at hmirror
              exact hmirror.cons (some c)

/-- What is one step down through a field of the node at a position. -/
def across (path : Path) (n : Node) (name : String) : List Occurrence :=
  (n.edges name).map (Occurrence.along ⟨path, n⟩)

theorem mirrors_field (hbelow : Observes v levels below) (ho : around.Open)
    (hsize : ∀ edge ∈ n.edges name, edge.2.size ≤ levels) (s : σ) (hooks : List (Option η)) :
    Mirrors n hooks () (field below around name (n, s))
      (v.calls (around.wrap n) ((across around.path n name).flatMap Occurrence.events) (hooks, s)) := by
  cases hget : n.get? name with
  | none =>
      simp only [field, hget, across, edges, List.map_nil, List.flatMap_nil]
      exact .done s
  | some content =>
      cases content with
      | value json =>
          simp only [field, hget, across, edges, List.map_nil, List.flatMap_nil]
          exact .done s
      | child c =>
          have hc : c.size ≤ levels := by simpa [edges, hget] using hsize
          have hmirrors := mirrors_child hbelow ho hget hc s hooks
          simp only [field, hget, across, edges, List.map_cons, List.map_nil, List.flatMap_singleton]
          exact hmirrors
      | list slots =>
          have hc : ∀ c, some c ∈ slots → c.size ≤ levels := by
            intro c hmem
            obtain ⟨i, hi⟩ := List.getElem?_of_mem hmem
            exact hsize (⟨name, some i⟩, c)
              (mem_edges_iff.mpr ⟨rfl, step?_slot_eq_some_iff.mpr ⟨slots, hget, hi⟩⟩)
          have hmirror := slotsMirror_slots hbelow ho [] slots hget hc s hooks
          have hacross : across around.path n name = occupants around.path name 0 slots := by
            simp only [across, edges, hget, occupants, List.map_filterMap, Option.map_map]
            rfl
          rw [hacross]
          simp only [field, hget, list]
          rw [List.nil_append, List.length_nil] at hmirror
          generalize Sweep.slots below around n name [] slots s = swept at hmirror ⊢
          generalize v.calls _ _ (hooks, s) = calls at hmirror ⊢
          cases hmirror with
          | done s =>
              have hflat : (slots.map fun slot => [slot]).flatten = slots := by
                rw [← List.flatMap_def, List.flatMap_singleton']
              simp only [hflat, set_eq_self hget]
              exact .done s
          | stopped stop s left =>
              simp only [set_eq_self hget]
              exact .stopped stop s left

theorem mirrors_fields (hbelow : Observes v levels below) (ho : around.Open)
    (hsize : n.size ≤ levels + 1) (names : List String) (s : σ) (hooks : List (Option η)) :
    Mirrors n hooks () (names.forM (field below around) (n, s))
      (v.calls (around.wrap n)
        ((names.flatMap (across around.path n)).flatMap Occurrence.events) (hooks, s)) := by
  induction names generalizing s with
  | nil => exact .done s
  | cons name names ih =>
      have hlevels : ∀ edge ∈ n.edges name, edge.2.size ≤ levels := by
        intro edge hedge
        have hlt := size_edges_lt hedge
        omega
      rw [List.flatMap_cons, List.flatMap_append, v.calls_append]
      exact (mirrors_field hbelow ho hlevels s hooks).bind fun s => ih s

theorem cursorAt_wrap (ho : around.Open) (n : Node) :
    (around.wrap n).cursorAt η ⟨around.path, n⟩
      = { root := around.root, path := around.path, node := n } := by
  rw [cursorAt, Surroundings.detach_wrap ho]
  rfl

theorem mirrors_leave (hv : v.ReadOnly) (ho : around.Open) (n : Node) (hook : Option η) (s : σ)
    (hooks : List (Option η)) :
    Mirrors n hooks Settled.keep (leave v around hook (n, s))
      (v.calls (around.wrap n) [.leave ⟨around.path, n⟩] (hook :: hooks, s)) := by
  cases hook with
  | none => exact .done s
  | some hook =>
      have hkept := hv.leave hook { root := around.root, path := around.path, node := n } s rfl
      show Mirrors n hooks _ (EStateM.bind (act around (v.leave hook)) _ (n, s))
        (EStateM.bind (v.call _ _) _ (some hook :: hooks, s))
      simp only [EStateM.bind, act, Visitor.call, List.head?_cons, Option.join_some, cursorAt_wrap ho]
      generalize v.leave hook _ = result at hkept ⊢
      cases result with
      | ok _ left =>
          obtain ⟨c, s⟩ := left
          obtain ⟨hnode, houtcome⟩ := hkept
          simp only [hnode, houtcome]
          exact .done s
      | error error left =>
          obtain ⟨c, s⟩ := left
          have hnode : c.node = n := hkept
          simp only [hnode]
          exact .stopped (.failed error) s hooks

/-- A node is entered, then what is below it is gone through, then it is left. -/
theorem observes_node (hv : v.ReadOnly) (levels : Nat) : Observes v levels (node v levels) := by
  induction levels with
  | zero =>
      intro around _ n s hooks hsize
      have hpos := n.size_pos
      omega
  | succ levels ih =>
      intro around ho n s hooks hsize
      have hkept := hv.enter { root := around.root, path := around.path, node := n } s rfl
      rw [Occurrence.events_eq, List.cons_append]
      show Mirrors n hooks _ (EStateM.bind (act around v.enter) _ (n, s))
        (EStateM.bind (v.call _ _) _ (hooks, s))
      simp only [EStateM.bind, act, Visitor.call, cursorAt_wrap ho]
      generalize v.enter _ = result at hkept ⊢
      cases result with
      | error error left =>
          obtain ⟨c, s⟩ := left
          have hnode : c.node = n := hkept
          simp only [hnode]
          exact .stopped (.failed error) s hooks
      | ok _ left =>
          obtain ⟨c, s⟩ := left
          obtain ⟨hnode, houtcome⟩ := hkept
          simp only [hnode, houtcome]
          have hfields := mirrors_fields ih ho hsize n.kind.fields s (c.hook :: hooks)
          have hvisited : Occurrence.visited ⟨around.path, n⟩
              = n.kind.fields.flatMap (across around.path n) := List.map_flatMap
          rw [hvisited, v.calls_append]
          -- The hook that was left on entering is the first one again when the node is left.
          have hleave := fun s => mirrors_leave hv ho n c.hook s hooks
          exact Mirrors.bind hfields hleave

end Sweep

/-- **A walk that edits nothing makes the calls for the events of the tree**, and leaves the tree as it is. -/
theorem Visitor.run_eq_observe {v : Visitor σ η} (hv : v.ReadOnly) (t : Node) (s : σ) {levels : Nat}
    (hlevels : t.size ≤ levels) : v.run levels t s = v.observe t s := by
  have hmirrors : Mirrors t [] Settled.keep (Sweep.node v levels [] (t, s))
      (v.calls t t.events ([], s)) :=
    Sweep.observes_node hv levels [] (fun _ h => nomatch h) t s [] hlevels
  rw [Sweep.run_eq, sweep, observe]
  generalize Sweep.node v levels [] (t, s) = swept at hmirrors ⊢
  generalize v.calls t t.events ([], s) = calls at hmirrors ⊢
  cases hmirrors with
  | done s => rfl
  | stopped stop s left => rfl

/-! ## What a visitor sees -/

/-- The kind of an ancestor and the step taken from it. -/
def Ancestor.sign (a : Ancestor) : Kind × Step := (a.kind, a.step)

/-- Taking the node of a position out does not show in the kinds and steps above it. -/
theorem map_sign_cursorAt {t : Node} {o : Occurrence} (ho : t.Holds o) :
    (t.cursorAt η o).ancestors.map Ancestor.sign = (t.ancestors o.path).map Ancestor.sign := by
  obtain ⟨rest, hrest⟩ := exists_detach ho
  rw [Cursor.ancestors, cursorAt, hrest, Option.map_some, Option.getD_some]
  by_cases hne : o.path = []
  · rw [hne]
    rfl
  · have hsimilar := similar_ancestors_of_gap (resembles_detach hne hrest).alike ho
      fun q hq => (Option.some.inj hq).symm
    have hsigns : List.Forall₂ (fun a a' => a.sign = a'.sign) (t.ancestors o.path)
        (rest.ancestors o.path) := by
      apply hsimilar.imp
      intro a a' h
      rw [Ancestor.sign, Ancestor.sign, h.kind, h.step]
    rw [← List.forall₂_map_right_iff (f := Ancestor.sign),
      ← List.forall₂_map_left_iff (f := Ancestor.sign), List.forall₂_eq_eq_eq] at hsigns
    exact hsigns.symm

/-- The nodes that a visitor enters. -/
def Node.entered (t : Node) : List Occurrence := t.events.filterMap Event.entered?

theorem entered_eq (t : Node) : t.entered = t.occurrences := Occurrence.entered_events ⟨[], t⟩

end Minifier
