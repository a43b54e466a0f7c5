import Mathlib.Data.List.Forall2
import Minifier.Proofs.Entries
import Minifier.Proofs.Optimize.Directive
import Minifier.Proofs.Optimize.NormalForm

/-!
# The directives of programs and functions

The body of a program or a function starts with its directives, the `prologue`. The optimizer drops some of them, and
it makes directives of statements that were none (`directives_created`). Each body of the optimized tree is what became
of one body of the tree: its prologue consists of directives that this body had, and behind them of those that the
statements behind its prologue became (`optimize_keeps_prologues`).
-/

namespace Minifier.Optimize

open Node Sweep

/-! ## Bodies -/

/-- The nodes that a field holds, where they stand. -/
def heldIn (path : Path) (name : String) : Field Node → List Occurrence
  | .child c => [⟨path ++ [⟨name, none⟩], c⟩]
  | .list slots => occupants path name 0 slots
  | .value _ => []

theorem map_node_occupants (path : Path) (name : String) (start : Nat) (slots : List (Option Node)) :
    (occupants path name start slots).map (·.node) = slots.filterMap id := by
  induction slots generalizing start with
  | nil => rfl
  | cons slot rest ih =>
      cases slot with
      | none => exact ih (start + 1)
      | some c => exact congrArg (c :: ·) (ih (start + 1))

/-- The nodes that a field holds. -/
def nodesIn : Field Node → List Node
  | .child c => [c]
  | .list slots => slots.filterMap id
  | .value _ => []

theorem map_node_heldIn (path : Path) (name : String) (content : Field Node) :
    (heldIn path name content).map (·.node) = nodesIn content := by
  cases content with
  | child c => rfl
  | list slots => exact map_node_occupants path name 0 slots
  | value json => rfl

theorem size_nodesIn_le {content : Field Node} {c : Node} (h : c ∈ nodesIn content) :
    c.size ≤ sizeOfField content := by
  cases content with
  | child d =>
      cases List.mem_singleton.mp h
      exact Nat.le_refl _
  | list slots =>
      obtain ⟨slot, hslot, rfl⟩ := List.mem_filterMap.mp h
      exact size_le_of_mem_slots hslot
  | value json => cases h

theorem size_heldIn_lt {o c : Occurrence} {entry : String × Field Node} (hentry : entry ∈ o.node.fields)
    (h : c ∈ heldIn o.path entry.1 entry.2) : c.node.size < o.node.size := by
  have hnode : c.node ∈ nodesIn entry.2 := by
    rw [← map_node_heldIn o.path entry.1]
    exact List.mem_map_of_mem h
  have hle := size_nodesIn_le hnode
  obtain ⟨path, kind, fields⟩ := o
  have hfield : sizeOfField entry.2 ≤ sizeOfFields fields := sizeOfField_le_of_mem hentry
  rw [size]
  omega

/-- The field holds the body of a function. -/
def holdsBody (kind : Kind) (entry : String × Field Node) : Bool :=
  isBodyField kind entry.1 && entry.2.child?.isSome

/-- The programs and what stands as the body of a function, from the outside in and from left to right; `isBody` tells
that the node itself stands so. -/
def bodiesAt (isBody : Bool) (o : Occurrence) : List Occurrence :=
  (if o.node.kind == .program || isBody then [o] else []) ++
    o.node.fields.attach.flatMap fun ⟨entry, _⟩ =>
      (heldIn o.path entry.1 entry.2).attach.flatMap fun ⟨c, _⟩ => bodiesAt (holdsBody o.node.kind entry) c
termination_by o.node.size
decreasing_by exact size_heldIn_lt ‹_› ‹_›

/-- The bodies in a field of a node of the kind. -/
def bodiesIn (kind : Kind) (path : Path) (entry : String × Field Node) : List Occurrence :=
  (heldIn path entry.1 entry.2).flatMap (bodiesAt (holdsBody kind entry))

theorem bodiesAt_eq (isBody : Bool) (o : Occurrence) :
    bodiesAt isBody o = (if o.node.kind == .program || isBody then [o] else []) ++
      o.node.fields.flatMap (bodiesIn o.node.kind o.path) := by
  rw [bodiesAt]
  simp only [List.flatMap_subtype, List.unattach_attach]
  rfl

/-- The bodies as nodes. -/
def bodies (isBody : Bool) (n : Node) : List Node := (bodiesAt isBody ⟨[], n⟩).map (·.node)

/-- The bodies in a field, as nodes. -/
def bodyNodes (kind : Kind) (entry : String × Field Node) : List Node :=
  (nodesIn entry.2).flatMap (bodies (holdsBody kind entry))

theorem map_node_bodiesIn_of {kind : Kind} {path : Path} {entry : String × Field Node}
    (h : ∀ c ∈ heldIn path entry.1 entry.2,
      (bodiesAt (holdsBody kind entry) c).map (·.node) = bodies (holdsBody kind entry) c.node) :
    (bodiesIn kind path entry).map (·.node) = bodyNodes kind entry := by
  unfold bodiesIn bodyNodes
  rw [List.map_flatMap, ← map_node_heldIn path entry.1, List.flatMap_map]
  exact List.flatMap_congr h

/-- Where a node stands does not count for the bodies in it. -/
theorem map_node_bodiesAt (isBody : Bool) (o : Occurrence) :
    (bodiesAt isBody o).map (·.node) = bodies isBody o.node := by
  induction hsize : o.node.size using Nat.strongRecOn generalizing isBody o with
  | ind size ih =>
      have hfields : ∀ path, (o.node.fields.flatMap (bodiesIn o.node.kind path)).map (·.node)
          = o.node.fields.flatMap (bodyNodes o.node.kind) := by
        intro path
        rw [List.map_flatMap]
        apply List.flatMap_congr
        intro entry hentry
        apply map_node_bodiesIn_of
        intro c hc
        have hlt : c.node.size < size := hsize ▸ size_heldIn_lt (o := ⟨path, o.node⟩) hentry hc
        exact ih c.node.size hlt _ c rfl
      unfold bodies
      rw [bodiesAt_eq, bodiesAt_eq isBody ⟨[], o.node⟩, List.map_append, List.map_append, hfields, hfields]
      congr 1
      split <;> rfl

theorem map_node_bodiesIn (kind : Kind) (path : Path) (entry : String × Field Node) :
    (bodiesIn kind path entry).map (·.node) = bodyNodes kind entry :=
  map_node_bodiesIn_of fun c _ => map_node_bodiesAt _ c

theorem bodies_eq (isBody : Bool) (n : Node) :
    bodies isBody n = (if n.kind == .program || isBody then [n] else []) ++ n.fields.flatMap (bodyNodes n.kind) := by
  unfold bodies
  rw [bodiesAt_eq, List.map_append, List.map_flatMap]
  simp only [map_node_bodiesIn]
  congr 1
  split <;> rfl

/-! ## What becomes of a body -/

/-- The node is the other, but for the value of a variable. -/
structure Trims (after before : Node) : Prop where
  kind_eq : after.kind = before.kind
  get?_eq : ∀ name, name ≠ "init" → after.get? name = before.get? name

/-- The directives of a body are some of those that it had, and behind them those that the statements behind them
became; besides its statements it carries what it did. Where an `if` stood as the body they are those of the branch. -/
inductive Accounted (t after : Node) (before : Occurrence) : Prop where
  | statements {kept made only} : after.kind = before.node.kind →
      (∀ name, name ≠ "body" → after.get? name = before.node.get? name) →
      prologue after = kept ++ made → kept.Sublist (prologue before.node) →
      Leads t ((before.children "body").dropWhile (isDirective ·.node)) made only → Accounted t after before
  | branch {only} : before.node.kind = .ifStatement → Inside t before (prologue after) only → Accounted t after before

/-- The node is what became of a body of the tree. -/
inductive Continues (t after : Node) (before : Occurrence) : Prop where
  | unchanged : Trims after before.node → Continues t after before
  | made {around left} : ComesTo t around before → Makes around before.node (.keep, left) → Trims after left →
      (left.kind = .program ∨ left.kind = .blockStatement → Accounted t left before) → Continues t after before

variable {t : Node} {around : Surroundings} {n m c r : Node} {x : Settled × Node} {name : String} {isBody : Bool}
  {names : List String} {path : Path} {P : Surroundings → Node → Settled × Node → Prop} {flag : Bool}
  {done rest pieces : List (Option Node)} {old new : Field Node} {R : Node → Node → Prop}

theorem Trims.refl (n : Node) : Trims n n := ⟨rfl, fun _ _ => rfl⟩

instance : Std.Refl Trims := ⟨Trims.refl⟩

theorem Trims.trans {a b c : Node} (h : Trims a b) (h' : Trims b c) : Trims a c :=
  ⟨h.kind_eq.trans h'.kind_eq, fun name hname => (h.get?_eq name hname).trans (h'.get?_eq name hname)⟩

theorem Continues.of_trims {a b : Node} {o : Occurrence} (h : Trims a b) (h' : Continues t b o) :
    Continues t a o := by
  cases h' with
  | unchanged hb => exact .unchanged (h.trans hb)
  | made hcomes hmakes hb haccounted => exact .made hcomes hmakes (h.trans hb) haccounted

/-- Of the bodies some are left, in their order, each as the relation tells. -/
abbrev Left {α β : Type} (R : α → β → Prop) (after : List α) (before : List β) : Prop :=
  List.SublistForall₂ R after before

namespace Left

variable {α β γ : Type} {R : α → β → Prop} {first third : List α} {second fourth : List β}

theorem of_suffix (h : Left R first second) (before : List β) : Left R first (before ++ second) := by
  induction before with
  | nil => exact h
  | cons b before ih => exact .cons_right ih

theorem append (h : Left R first second) (h' : Left R third fourth) :
    Left R (first ++ third) (second ++ fourth) := by
  induction h with
  | @nil before => exact h'.of_suffix before
  | cons hb _ ih => exact .cons hb ih
  | cons_right _ ih => exact .cons_right ih

/-- One relation after the other. -/
theorem comp {S : β → γ → Prop} {T : α → γ → Prop} {last : List γ} (hT : ∀ a b c, R a b → S b c → T a c)
    (h : Left R first second) (h' : Left S second last) : Left T first last := by
  -- On the second, as it tells what there is to be left by the first.
  induction h' generalizing first with
  | nil =>
      cases h
      exact .nil
  | cons hb _ ih =>
      cases h with
      | nil => exact .nil
      | cons ha h => exact .cons (hT _ _ _ ha hb) (ih h)
      | cons_right h => exact .cons_right (ih h)
  | cons_right _ ih => exact .cons_right (ih h)

theorem mono_right (h : Left R first second) (hsub : second.Sublist fourth) : Left R first fourth :=
  comp (fun _ _ _ ha hb => hb ▸ ha) h (S := Eq) hsub.sublistForall₂

theorem mono_left (hsub : third.Sublist first) (h : Left R first second) : Left R third second :=
  comp (R := Eq) (fun _ _ _ ha hb => ha ▸ hb) hsub.sublistForall₂ h

/-- What is left of all is left of the whole. -/
theorem flatMap {δ : Type} {f : δ → List α} {g : δ → List β} {ds : List δ} (h : ∀ d ∈ ds, Left R (f d) (g d)) :
    Left R (ds.flatMap f) (ds.flatMap g) := by
  induction ds with
  | nil => exact .nil
  | cons d ds ih =>
      rw [List.flatMap_cons, List.flatMap_cons]
      exact append (h d (List.mem_cons_self ..)) (ih fun d hd => h d (List.mem_cons_of_mem _ hd))

end Left

/-- What is not swept stays. -/
theorem left_map_node (t : Node) (os : List Occurrence) : Left (Continues t) (os.map (·.node)) os := by
  induction os with
  | nil => exact .nil
  | cons o os ih => exact .cons (.unchanged (.refl _)) ih

/-! ## What is pruned -/

/-- One field is written. -/
theorem left_flatMap_set [Std.Refl R] {fields : List (String × Field Node)} {f : String × Field Node → List Node}
    (h : Left R (f (name, new)) (((Entries.get? fields name).map fun old => f (name, old)).getD [])) :
    Left R ((Entries.set fields name new).flatMap f) (fields.flatMap f) := by
  have hrefl : ∀ nodes : List Node, Left R nodes nodes := fun nodes => (List.Sublist.refl nodes).sublistForall₂
  cases hget : Entries.get? fields name with
  | none =>
      rw [hget] at h
      have hleft : Left R (fields.flatMap f ++ f (name, new)) (fields.flatMap f ++ []) := (hrefl _).append h
      rw [List.append_nil] at hleft
      rw [Entries.set_of_not_mem (Entries.get?_eq_none_iff.mp hget), List.flatMap_append, List.flatMap_singleton]
      exact hleft
  | some old =>
      rw [hget] at h
      obtain ⟨front, back, hfields, hset⟩ := Entries.exists_split hget
      rw [hset, hfields, List.flatMap_append, List.flatMap_append, List.flatMap_cons, List.flatMap_cons]
      exact (hrefl _).append (Left.append h (hrefl _))

/-- The bodies of a node one of whose fields is written. -/
theorem left_bodies_set (hself : (n.kind == .program || isBody) = true → Trims (n.set name new) n)
    (h : Left Trims (bodyNodes n.kind (name, new))
      (((n.get? name).map fun old => bodyNodes n.kind (name, old)).getD [])) :
    Left Trims (bodies isBody (n.set name new)) (bodies isBody n) := by
  rw [bodies_eq, bodies_eq isBody n]
  refine Left.append ?_ (left_flatMap_set h)
  rw [kind_set]
  split
  · rename_i hcounts
    exact .cons (hself hcounts) .nil
  · exact .nil

theorem left_bodies_setInit (isBody : Bool) (n : Node) :
    Left Trims (bodies isBody (n.setValue "init" .null)) (bodies isBody n) :=
  left_bodies_set (fun _ => ⟨rfl, fun _ hname => get?_set_of_ne hname⟩) .nil

theorem left_bodies_remainder (h : unreachableRemainder? n = some m) :
    Left Trims (bodies false m) (bodies false n) := by
  rcases unreachableRemainder?_eq_some h with rfl | ⟨hkind, declarators, hslots, _, rfl⟩
  · exact (List.Sublist.refl _).sublistForall₂
  · apply left_bodies_set
    · rw [hkind]
      exact nofun
    · rw [slots?_eq_some_iff.mp hslots, hkind]
      have hnodes : (declarators.map (·.map (·.setValue "init" .null))).filterMap id
          = (declarators.filterMap id).map (·.setValue "init" .null) := by
        rw [List.filterMap_map, List.map_filterMap]
        rfl
      show Left Trims (((declarators.map (·.map (·.setValue "init" .null))).filterMap id).flatMap (bodies false))
        ((declarators.filterMap id).flatMap (bodies false))
      rw [hnodes, List.flatMap_map]
      exact Left.flatMap fun c _ => left_bodies_setInit false c

theorem left_pruneStatements (slots : List (Option Node)) :
    Left Trims (((pruneStatements slots).filterMap id).flatMap (bodies false))
      ((slots.filterMap id).flatMap (bodies false)) := by
  have hremainders : ∀ nodes : List Node,
      Left Trims ((nodes.filterMap unreachableRemainder?).flatMap (bodies false)) (nodes.flatMap (bodies false)) := by
    intro nodes
    induction nodes with
    | nil => exact .nil
    | cons c nodes ih =>
        rw [List.filterMap_cons, List.flatMap_cons]
        cases hremainder : unreachableRemainder? c with
        | none => exact Left.of_suffix ih _
        | some m => exact Left.append (left_bodies_remainder hremainder) ih
  induction slots with
  | nil => exact .nil
  | cons slot rest ih =>
      unfold pruneStatements
      cases slot with
      | none => exact ih
      | some c =>
          split
          · refine Left.append (List.Sublist.refl _).sublistForall₂ ?_
            show Left Trims
              (((((rest.filterMap id).filterMap unreachableRemainder?).map some).filterMap id).flatMap _) _
            rw [filterMap_map_some]
            exact hremainders _
          · exact Left.append (List.Sublist.refl _).sublistForall₂ ih

theorem left_prune (hkind : n.kind = .blockStatement) :
    Left Trims ((prune n).fields.flatMap (bodyNodes n.kind)) (n.fields.flatMap (bodyNodes n.kind)) := by
  unfold prune
  cases hslots : n.slots? "body" with
  | none => exact (List.Sublist.refl _).sublistForall₂
  | some slots =>
      apply left_flatMap_set
      rw [show Entries.get? n.fields "body" = some (.list slots) from slots?_eq_some_iff.mp hslots, hkind]
      exact left_pruneStatements slots

/-! ## What is swept -/

/-- What stands in the slot is the body of a function. -/
def standsAsBody (around : Surroundings) : Bool := (spotOf around).body && !(spotOf around).listed

/-- What is left of a node holds bodies that became of those in the node. -/
def Sheds (t : Node) (isBody : Bool) (o : Occurrence) (x : Settled × Node) : Prop :=
  Left (Continues t) ((residue x).flatMap (bodies isBody)) (bodiesAt isBody o)

theorem SlotsLeft.bodies
    (h : SlotsLeft (fun a c y => Sheds t (standsAsBody a) ⟨a.path, c⟩ y) around n name flag done rest pieces) :
    Left (Continues t) ((pieces.filterMap id).flatMap (bodies false))
      ((occupants around.path name done.length rest).flatMap (bodiesAt false)) := by
  induction h with
  | nil => exact .nil
  | hole _ ih =>
      rw [List.length_append] at ih
      exact ih
  | node hspot hx _ ih =>
      rw [standsAsBody, hspot, Bool.not_true, Bool.and_false, Surroundings.path_cons] at hx
      rw [List.length_append] at ih
      rw [List.filterMap_append, List.flatMap_append]
      exact Left.append hx ih

theorem ContentLeft.bodies
    (h : ContentLeft (fun a c y => Sheds t (standsAsBody a) ⟨a.path, c⟩ y) around n name old new) :
    Left (Continues t) (bodyNodes n.kind (name, new)) (bodiesIn n.kind around.path (name, old)) := by
  unfold bodyNodes bodiesIn holdsBody
  cases h with
  | value json => exact .nil
  | @child c m hm =>
      have hbody : standsAsBody (fieldFrame n name :: around) = (isBodyField n.kind name && true) := rfl
      rw [hbody, Surroundings.path_cons] at hm
      show Left (Continues t) _ (bodiesAt _ _ ++ [])
      rw [List.append_nil]
      exact hm
  | list hslots =>
      rw [show (isBodyField n.kind name && (Field.child? (.list _)).isSome) = false from Bool.and_false _,
        show (isBodyField n.kind name && (Field.child? (.list _)).isSome) = false from Bool.and_false _]
      exact hslots.bodies

/-- An entry of a node after the fields of these names were swept. -/
def EntryLeft (t : Node) (kind : Kind) (path : Path) (names : List String) (before after : String × Field Node) :
    Prop :=
  after.1 = before.1 ∧
    (after.2 = before.2 ∨ before.1 ∈ names ∧ Left (Continues t) (bodyNodes kind after) (bodiesIn kind path before))

instance (kind : Kind) : Std.Refl (EntryLeft t kind path names) := ⟨fun _ => ⟨rfl, .inl rfl⟩⟩

theorem entryLeft_set {kind : Kind} {fields : List (String × Field Node)}
    (hget : Entries.get? fields name = some old)
    (h : Left (Continues t) (bodyNodes kind (name, new)) (bodiesIn kind path (name, old))) :
    List.Forall₂ (EntryLeft t kind path [name]) fields (Entries.set fields name new) := by
  obtain ⟨front, back, hfields, hset⟩ := Entries.exists_split hget
  rw [hset, hfields]
  have hentry : EntryLeft t kind path [name] (name, old) (name, new) := ⟨rfl, .inr ⟨List.mem_singleton_self _, h⟩⟩
  exact List.rel_append (List.forall₂_refl front) (.cons hentry (List.forall₂_refl back))

/-- A field is written once. -/
theorem entryLeft_trans {kind : Kind} {first second third : List (String × Field Node)} (hfresh : name ∉ names)
    (h : List.Forall₂ (EntryLeft t kind path [name]) first second)
    (h' : List.Forall₂ (EntryLeft t kind path names) second third) :
    List.Forall₂ (EntryLeft t kind path (name :: names)) first third := by
  induction h generalizing third with
  | nil =>
      cases h'
      exact .nil
  | @cons a b first second hab _ ih =>
      cases h' with
      | @cons _ c _ third hbc hrest =>
          refine .cons ⟨hbc.1.trans hab.1, ?_⟩ (ih hrest)
          rcases hab.2 with hsame | ⟨hname, hleft⟩
          · rcases hbc.2 with hsame' | ⟨hnames, hleft⟩
            · exact .inl (hsame'.trans hsame)
            · rw [show b = a from Prod.ext hab.1 hsame] at hnames hleft
              exact .inr ⟨List.mem_cons_of_mem _ hnames, hleft⟩
          · rcases hbc.2 with hsame' | ⟨hnames, _⟩
            · rw [← show c = b from Prod.ext hbc.1 hsame'] at hleft
              exact .inr ⟨List.mem_singleton.mp hname ▸ List.mem_cons_self .., hleft⟩
            · rw [hab.1, List.mem_singleton.mp hname] at hnames
              exact absurd hnames hfresh

theorem FieldsLeft.entries
    (h : FieldsLeft (fun a c y => Sheds t (standsAsBody a) ⟨a.path, c⟩ y) around names n r) (hnodup : names.Nodup) :
    List.Forall₂ (EntryLeft t n.kind around.path names) n.fields r.fields := by
  induction h with
  | nil => exact List.forall₂_refl _
  | absent _ _ ih =>
      have hentries := ih (List.nodup_cons.mp hnodup).2
      exact hentries.imp fun _ _ hentry =>
        ⟨hentry.1, hentry.2.imp_right fun hleft => ⟨List.mem_cons_of_mem _ hleft.1, hleft.2⟩⟩
  | field hget hcontent _ ih =>
      obtain ⟨hfresh, hnodup⟩ := List.nodup_cons.mp hnodup
      exact entryLeft_trans hfresh (entryLeft_set hget hcontent.bodies) (ih hnodup)

theorem FieldsLeft.bodies
    (h : FieldsLeft (fun a c y => Sheds t (standsAsBody a) ⟨a.path, c⟩ y) around names n r) (hnodup : names.Nodup) :
    Left (Continues t) (r.fields.flatMap (bodyNodes n.kind)) (n.fields.flatMap (bodiesIn n.kind around.path)) := by
  have hentries := h.entries hnodup
  generalize n.fields = before at hentries
  generalize r.fields = after at hentries
  induction hentries with
  | nil => exact .nil
  | @cons a b _ _ hab _ ih =>
      rw [List.flatMap_cons, List.flatMap_cons]
      refine Left.append ?_ ih
      rcases hab.2 with hsame | ⟨_, hleft⟩
      · rw [show b = a from Prod.ext hab.1 hsame, ← map_node_bodiesIn n.kind around.path]
        exact left_map_node t _
      · exact hleft

/-! ## What the optimizer makes of bodies -/

/-- One field is written, with the same bodies in it. -/
theorem flatMap_set_of_eq {β : Type} {fields : List (String × Field Node)} {f : String × Field Node → List β}
    (hget : Entries.get? fields name = some old) (h : f (name, new) = f (name, old)) :
    (Entries.set fields name new).flatMap f = fields.flatMap f := by
  obtain ⟨front, back, hfields, hset⟩ := Entries.exists_split hget
  rw [hset, hfields, List.flatMap_append, List.flatMap_append, List.flatMap_cons, List.flatMap_cons, h]

theorem flatMap_bodiesIn_shorten (path : Path) (n : Node) :
    (shorten n).fields.flatMap (bodiesIn n.kind path) = n.fields.flatMap (bodiesIn n.kind path) := by
  by_cases hvoid : n.kind = .expressionStatement ∧ discardsVoid n = true
  · obtain ⟨hkind, hvoid⟩ := hvoid
    obtain ⟨e, he, hunary, hoperator⟩ := discardsVoid_iff.mp hvoid
    rw [shorten_of_discardsVoid hkind he hvoid]
    apply flatMap_set_of_eq (child?_eq_some_iff.mp he)
    have hbodies : bodiesAt false ⟨path ++ [⟨"expression", none⟩], e.setValue "operator" (.string "!")⟩
        = bodiesAt false ⟨path ++ [⟨"expression", none⟩], e⟩ := by
      have hfields : (e.setValue "operator" (.string "!")).fields.flatMap
          (bodiesIn e.kind (path ++ [⟨"expression", none⟩]))
            = e.fields.flatMap (bodiesIn e.kind (path ++ [⟨"expression", none⟩])) :=
        flatMap_set_of_eq hoperator rfl
      have hself : (e.kind == .program || false) = false := by rw [hunary]; rfl
      rw [bodiesAt_eq, bodiesAt_eq false ⟨_, e⟩]
      show (if e.kind == .program || false then _ else _) ++ _ = (if e.kind == .program || false then _ else _) ++ _
      rw [hself]
      exact hfields
    unfold bodiesIn holdsBody
    rw [hkind]
    exact congrArg (· ++ []) hbodies
  · rw [shorten_eq_self hvoid]

theorem bodies_ofMagnitude (y : Float) : bodies false (Expression.ofMagnitude y) = [] := by
  rw [bodies_eq]
  unfold Expression.ofMagnitude
  split <;> rfl

theorem bodies_ofValue {v : Value} (h : v.isPrimitive = true) : bodies false (Expression.ofValue v) = [] := by
  cases v with
  | number y =>
      show bodies false (Expression.ofNumber y) = []
      unfold Expression.ofNumber
      split
      · rw [bodies_eq]
        rfl
      · split
        · rw [bodies_eq]
          show (bodies false (Expression.ofMagnitude (-y)) ++ []) ++ [] = []
          rw [bodies_ofMagnitude]
          rfl
        · exact bodies_ofMagnitude y
  | array items => cases h
  | object entries => cases h
  | _ =>
      rw [bodies_eq]
      rfl

/-- What stays in its slot holds the bodies in its fields, and itself if it is one. -/
theorem Sheds.keep {o : Occurrence} (hself : Continues t m o)
    (hcounts : m.kind = .program → o.node.kind = .program ∨ isBody = true)
    (hfields : Left (Continues t) (m.fields.flatMap (bodyNodes m.kind))
      (o.node.fields.flatMap (bodiesIn o.node.kind o.path))) : Sheds t isBody o (.keep, m) := by
  show Left (Continues t) (bodies isBody m ++ []) _
  rw [List.append_nil, bodies_eq, bodiesAt_eq]
  refine Left.append ?_ hfields
  split
  · rename_i hbody
    have hbefore : (o.node.kind == .program || isBody) = true := by
      rw [Bool.or_eq_true_iff, beq_iff_eq] at hbody ⊢
      exact hbody.elim hcounts .inr
    rw [if_pos hbefore]
    exact .cons hself .nil
  · exact .nil

/-- The directives of a program or a block whose statements were swept. -/
theorem FieldsLeft.accounted
    (h : FieldsLeft (fun a c y => Makes a c y ∧ Emerges t ⟨a.path, c⟩ y) around n.kind.fields n r)
    (hopens : n.kind = .program ∨ n.kind = .blockStatement) (hpruned : Pruned m r) :
    Accounted t m ⟨around.path, n⟩ := by
  have hfields : n.kind.fields = ["body"] := by
    rcases hopens with hkind | hkind <;> rw [hkind] <;> rfl
  have hname : "body" ∈ n.kind.fields := by rw [hfields]; exact List.mem_singleton_self _
  have hget : ∀ name, name ≠ "body" → m.get? name = n.get? name := by
    intro name hbody
    rw [hpruned.get?_eq hbody]
    apply h.get?_of_not_mem
    rw [hfields]
    exact fun hmem => hbody (List.mem_singleton.mp hmem)
  obtain ⟨kept, made, only, hprologue, hkept, hmade⟩ : ∃ kept made only, prologue r = kept ++ made ∧
      kept.Sublist (prologue n) ∧
      Leads t ((Occurrence.children ⟨around.path, n⟩ "body").dropWhile (isDirective ·.node)) made only := by
    unfold prologue Node.children Occurrence.children
    rcases h.slots? (nodup_fields _) hname with ⟨hslots, hpieces⟩ | ⟨slots, pieces, copy, hslots, hpieces, _, hleft⟩
    · rw [hslots, hpieces]
      exact ⟨[], [], true, rfl, List.Sublist.refl _, .nil⟩
    · rw [hslots, hpieces]
      exact hleft.accounted
  exact .statements (hpruned.kind_eq.trans h.kind_eq) hget (hpruned.prologue_eq.trans hprologue) hkept hmade

theorem Pruned.left (h : Pruned m r) :
    Left Trims (m.fields.flatMap (bodyNodes r.kind)) (r.fields.flatMap (bodyNodes r.kind)) := by
  rcases h with rfl | ⟨hblock, rfl⟩
  · exact (List.Sublist.refl _).sublistForall₂
  · exact left_prune hblock

theorem sheds_of_ne_if
    (h : Turn (fun a c y => Makes a c y ∧ Meets t a c ∧ Sheds t (standsAsBody a) ⟨a.path, c⟩ y) around n x)
    (hmakes : Makes around n x) (hmeets : Meets t around n) (hif : n.kind ≠ .ifStatement) :
    Sheds t (standsAsBody around) ⟨around.path, n⟩ x := by
  have hcomes : ComesTo t around ⟨around.path, n⟩ := ⟨rfl, hmeets⟩
  cases h with
  | folded hfolded =>
      obtain ⟨_, _, w, hw, rfl⟩ := foldedBy_eq_some hfolded
      have hvalue := bodies_ofValue (isPrimitive_of_evaluate? hw)
      rw [bodies_eq, List.append_eq_nil_iff] at hvalue
      apply Sheds.keep
      · refine .made hcomes hmakes (.refl _) ?_
        rintro (hprogram | hblock)
        · exact absurd hprogram (kind_ofValue w).1
        · exact absurd hblock (kind_ofValue w).2.1
      · exact fun hprogram => absurd hprogram (kind_ofValue w).1
      · rw [hvalue.2]
        exact .nil
  | dropped _ _ => exact .nil
  | @swept r _ _ hleft =>
      have hkind : r.kind = n.kind := hleft.kind_eq.trans (kind_shorten n)
      rw [settleBy_of_ne_if (hkind ▸ hif)] at hmakes ⊢
      obtain ⟨m, hm, hpruned⟩ := settle_eq_keep (hkind ▸ hif) (spotOf around).listed
      rw [hm] at hmakes ⊢
      have hmkind : m.kind = n.kind := hpruned.kind_eq.trans hkind
      have hfields := (hleft.mono (Q := fun a c y => Sheds t (standsAsBody a) ⟨a.path, c⟩ y) (nodup_fields _)
        fun _ _ _ hy => hy.2.2).bodies (nodup_fields _)
      rw [kind_shorten, flatMap_bodiesIn_shorten] at hfields
      apply Sheds.keep
      · refine .made hcomes hmakes (.refl _) ?_
        intro hopens
        rw [hmkind] at hopens
        rw [shorten_of_ne (by rcases hopens with hn | hn <;> rw [hn] <;> decide)] at hleft
        exact (hleft.mono (Q := fun a c y => Makes a c y ∧ Emerges t ⟨a.path, c⟩ y) (nodup_fields _)
          fun _ _ _ hy => ⟨hy.1, hy.1.emerges hy.2.1⟩).accounted hopens hpruned
      · intro hprogram
        exact .inl (hmkind.symm.trans hprogram)
      · have hpieces := hpruned.left
        rw [hkind] at hpieces
        rw [hmkind]
        exact Left.comp (S := Continues t) (T := Continues t) (fun _ _ _ htrims hrest => .of_trims htrims hrest)
          hpieces hfields

/-- The bodies of the branch are among those of the `if`. -/
theorem bodiesAt_branch_sublist {o branch : Occurrence} {test : Bool} (hkind : o.node.kind = .ifStatement)
    (h : branch? o test = some branch) :
    (bodiesAt false branch).Sublist (o.node.fields.flatMap (bodiesIn o.node.kind o.path)) := by
  obtain ⟨hstep, hpath⟩ := Occurrence.child?_eq_some_iff.mp h
  have hentry := Entries.mem_of_get?_eq_some (child?_eq_some_iff.mp hstep)
  have hbodies : bodiesIn o.node.kind o.path (if test then "consequent" else "alternate", .child branch.node)
      = bodiesAt false branch := by
    unfold bodiesIn holdsBody
    rw [hkind]
    show bodiesAt false ⟨o.path ++ _, branch.node⟩ ++ [] = _
    rw [List.append_nil, ← hpath]
  rw [← hbodies]
  exact List.sublist_flatten_of_mem (List.mem_map_of_mem hentry)

/-- The statements of a block, without the block. -/
theorem bodies_children_sublist (hkind : n.kind = .blockStatement) :
    ((n.children "body").flatMap (bodies false)).Sublist (bodies false n) := by
  rw [bodies_eq, hkind]
  unfold Node.children
  cases hslots : n.slots? "body" with
  | none => exact List.nil_sublist _
  | some slots =>
      have hentry := Entries.mem_of_get?_eq_some (slots?_eq_some_iff.mp hslots)
      exact List.sublist_flatten_of_mem (List.mem_map_of_mem (f := bodyNodes .blockStatement) hentry)

theorem sheds_of_if
    (h : Turn (fun a c y => Makes a c y ∧ Meets t a c ∧ Sheds t (standsAsBody a) ⟨a.path, c⟩ y) around n x)
    (hmakes : Makes around n x) (hmeets : Meets t around n) (hkind : n.kind = .ifStatement) :
    Sheds t (standsAsBody around) ⟨around.path, n⟩ x := by
  have hcomes : ComesTo t around ⟨around.path, n⟩ := ⟨rfl, hmeets⟩
  have hemerges := hmakes.emerges hmeets
  -- Only what is left as a program or a block has directives to account for.
  have hself : ∀ m, x = (.keep, m) → Continues t m ⟨around.path, n⟩ := by
    rintro m rfl
    exact .made hcomes hmakes (.refl _) fun hopens => .branch hkind (hemerges.inside rfl hopens)
  obtain ⟨r, hleft, hr, rfl | ⟨v, _, _, hcases⟩⟩ := h.cases_of_if hkind
  · have hfields := (hleft.mono (Q := fun a c y => Sheds t (standsAsBody a) ⟨a.path, c⟩ y) (nodup_fields _)
      fun _ _ _ hy => hy.2.2).bodies (nodup_fields _)
    apply Sheds.keep (hself r rfl)
    · rw [hr]
      exact nofun
    · rw [hr, ← hkind]
      exact hfields
  · rcases branch?_of_fieldsLeft hleft hkind v.truthy with ⟨_, hafter⟩ | ⟨c, m, a, hbefore, hafter, hspot, _, _, hsheds⟩
    · rcases hcases with ⟨_, rfl | rfl⟩ | ⟨m, hm, _⟩
      · exact .nil
      · exact .keep (hself _ rfl) nofun .nil
      · rw [hafter] at hm
        cases hm
    · have hsub := bodiesAt_branch_sublist (o := ⟨around.path, n⟩) hkind hbefore
      have hbranch : Left (Continues t) (bodies false m) (n.fields.flatMap (bodiesIn n.kind around.path)) := by
        unfold Sheds standsAsBody at hsheds
        rw [hspot, Bool.false_and] at hsheds
        have hbodies : (residue (.keep, m)).flatMap (bodies false) = bodies false m := List.append_nil _
        rw [hbodies] at hsheds
        exact hsheds.mono_right hsub
      rcases hcases with ⟨hnone, _⟩ | ⟨m', hm, hx⟩
      · rw [hafter] at hnone
        cases hnone
      · rw [hafter] at hm
        cases hm
        rcases hx with rfl | ⟨hlisted, hblock, _, rfl⟩
        · cases hbody : standsAsBody around with
          | true =>
              apply Sheds.keep (hself m rfl) fun _ => .inr rfl
              rw [bodies_eq] at hbranch
              exact Left.mono_left (List.sublist_append_right _ _) hbranch
          | false =>
              show Left (Continues t) (bodies false m ++ []) _
              rw [List.append_nil, bodiesAt_eq]
              exact hbranch.of_suffix _
        · have hbody : standsAsBody around = false := by rw [standsAsBody, hlisted, Bool.not_true, Bool.and_false]
          unfold Sheds
          rw [hbody, residue_flatten, bodiesAt_eq]
          exact (Left.mono_left (bodies_children_sublist hblock) hbranch).of_suffix _

theorem Makes.sheds (h : Makes around n x) (hmeets : Meets t around n) :
    Sheds t (standsAsBody around) ⟨around.path, n⟩ x := by
  refine Makes.induction_of_meets (P := fun a c y => Sheds t (standsAsBody a) ⟨a.path, c⟩ y) ?_ h hmeets
  intro around n x hmakes hmeets hturn
  by_cases hif : n.kind = .ifStatement
  · exact sheds_of_if hturn hmakes hmeets hif
  · exact sheds_of_ne_if hturn hmakes hmeets hif

/-- **Where the directives of the optimized tree come from.** Each body of a program or a function that is left is what
became of one of the tree, and its directives are directives that this one had, or what the statements behind them
became. -/
theorem optimize_keeps_prologues (t : Node) (hkind : t.kind = .program) :
    ∃ t', optimize t = .ok t' ∧ List.SublistForall₂ (Continues t) (bodies false t') (bodiesAt false ⟨[], t⟩) := by
  obtain ⟨x, hx, hoptimize⟩ := exists_optimize hkind
  have hsheds := hx.sheds .root
  have hkeep := hx.keep_of_ne_if (by rw [hkind]; decide) rfl
  refine ⟨x.2, hoptimize, ?_⟩
  have hresidue : (residue x).flatMap (bodies false) = bodies false x.2 := by
    unfold residue
    rw [hkeep]
    exact List.append_nil _
  rw [← hresidue]
  exact hsheds

/-! ### Programs to look at -/

/-- A string as a statement. -/
def saying (text : String) : Node := discarding (Expression.literal (.string text))

/-- A block. -/
def blockOf (statements : List Node) : Node := ⟨.blockStatement, [("body", .list (statements.map some))]⟩

/-- A function without parameters. -/
def functionWith (body : Node) : Node :=
  ⟨.functionDeclaration,
    [("id", .child (Expression.identifier "f")), ("params", .list []), ("body", .child body)]⟩

/-- `if` with a test. -/
def deciding (test statement : Node) : Node := (always statement).set "test" (.child test)

/-- `"use strict"; "a"; function f() { "use strict"; return; "b"; } if (x) "c"; "d" + "e";` -/
def strictTwice : Node :=
  programOf [saying "use strict", saying "a",
    functionWith (blockOf [saying "use strict", ⟨.returnStatement, []⟩, saying "b"]),
    deciding (Expression.identifier "x") (saying "c"),
    discarding (operation .binaryExpression "+" (Expression.literal (.string "d"))
      (Expression.literal (.string "e")))]

/-- Two prologues with directives, and strings behind them that are none. -/
theorem optimize_keeps_prologues_strictTwice :
    strictTwice.kind = .program ∧
      ∃ t', optimize strictTwice = .ok t' ∧
        List.SublistForall₂ (Continues strictTwice) (bodies false t') (bodiesAt false ⟨[], strictTwice⟩) :=
  ⟨rfl, optimize_keeps_prologues strictTwice rfl⟩

/-- The directives of all programs and functions in the tree. -/
def directivesIn (t : Node) : List Node := (bodies false t).flatMap prologue

/-- There is no directive in the program, and there is one when it is optimized. -/
def GainsDirective (t : Node) : Prop :=
  t.kind = .program ∧ directivesIn t = [] ∧ ∃ t', optimize t = .ok t' ∧ directivesIn t' ≠ []

/-- There is a directive when the program is optimized. -/
def directiveAfter (t : Node) : Bool :=
  match optimize t with
  | .ok t' => !(directivesIn t').isEmpty
  | .error _ => false

theorem gainsDirective_of_directiveAfter {t : Node} (hkind : t.kind = .program)
    (hbefore : (directivesIn t).isEmpty = true) (hafter : directiveAfter t = true) : GainsDirective t := by
  refine ⟨hkind, List.isEmpty_iff.mp hbefore, ?_⟩
  unfold directiveAfter at hafter
  cases hoptimize : optimize t with
  | error error =>
      rw [hoptimize] at hafter
      cases hafter
  | ok t' =>
      rw [hoptimize] at hafter
      refine ⟨t', rfl, ?_⟩
      intro hnil
      change (!(directivesIn t').isEmpty) = true at hafter
      rw [hnil] at hafter
      cases hafter

/-- **Directives are created.** By folding a string, by taking a branch or its statements, and by dropping an `if`
without a branch or with an empty one. Where an `if` stands as the body of a function or as the expression of a
statement, the branch takes its place; where it stands for a test, an operand, in parentheses or in a template, the
test of an `if` above it gains a value. -/
theorem directives_created :
    (GainsDirective (programOf [discarding (operation .binaryExpression "+"
        (Expression.literal (.string "a")) (Expression.literal (.string "b")))]) ∧
      GainsDirective (programOf [always (saying "a")]) ∧
      GainsDirective (programOf [always (blockOf [saying "a"])]) ∧
      GainsDirective (programOf
        [deciding (Expression.literal (.bool false)) (discarding (Expression.identifier "x")), saying "a"]) ∧
      GainsDirective (programOf [always (blockOf []), saying "a"])) ∧
    (GainsDirective (programOf [functionWith (always (blockOf [saying "a"]))]) ∧
      GainsDirective (programOf [discarding (always (Expression.literal (.string "a")))])) ∧
    (GainsDirective (programOf [deciding alwaysTrue (saying "a")]) ∧
      GainsDirective (programOf
        [deciding (negating (always (Expression.literal (.bool false)))) (saying "a")]) ∧
      GainsDirective (programOf [deciding (operation .binaryExpression "===" alwaysTrue
        (Expression.literal (.bool true))) (saying "a")]) ∧
      GainsDirective (programOf [deciding (operation .logicalExpression "&&" alwaysTrue
        (Expression.literal (.bool true))) (saying "a")]) ∧
      GainsDirective (programOf
        [deciding ⟨.parenthesizedExpression, [("expression", .child alwaysTrue)]⟩ (saying "a")]) ∧
      GainsDirective (programOf [deciding (template (withText ⟨.templateElement, []⟩)
        [deciding (Expression.literal (.bool false)) (discarding (Expression.identifier "x"))]) (saying "a")]) ∧
      GainsDirective (programOf
        [deciding (template (always (withText ⟨.templateElement, []⟩)) []) (saying "a")])) := by
  refine ⟨⟨?_, ?_, ?_, ?_, ?_⟩, ⟨?_, ?_⟩, ?_, ?_, ?_, ?_, ?_, ?_, ?_⟩
  all_goals exact gainsDirective_of_directiveAfter rfl (by decide +kernel) (by decide +kernel)

end Minifier.Optimize
