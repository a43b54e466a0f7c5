import Minifier.Proofs.Edit.Persistence
import Minifier.Proofs.Tree.Conversion

/-!
# Walks that fail

If a call of a visitor fails, the walk stops there. What it leaves behind is told by the calls that it made
(`failure_leaves_no_hole`):

* The tree is the one that the failing call saw, with its node put back as the call left it.
* A node that was visited before is where it was, as the last call at it left it and with what the calls below
  made of it. It has moved or is gone only by what was decided for a list or field that the walk was through
  with. A later call at a node above, on leaving that, may also have changed it.
* The lists on the way to the failing call have all their slots, and what comes behind the call is as it was
  left on entering the nodes above it.
* A place is empty only if a call left an empty place.
-/

namespace Minifier

open Node

variable {σ η : Type}

namespace History

/-! ## What is not over yet -/

/-- The position is in a field that the way to `p` goes through. -/
def isPending : Path → Path → Bool
  | step :: _, [last] => last.field == step.field
  | step :: p, first :: next :: q => first == step && isPending p (next :: q)
  | _, _ => false

/-- What is carried out for a position until a call at `p` fails: what was decided, unless the pass over the
field is not over. -/
def carriedOut (calls : List Call) (p q : Path) : Settled :=
  if isPending p q then .keep else decided calls q

variable {p q : Path} {step next : Step}

theorem isPending_nil (q : Path) : isPending [] q = false := by
  rcases q with _ | ⟨_, _ | ⟨_, _⟩⟩ <;> rfl

theorem isPending_cons_cons : isPending (step :: p) (step :: next :: q) = isPending p (next :: q) := by
  simp [isPending]

theorem isPending_of_ne {first : Step} (h : first ≠ step) :
    isPending (step :: p) (first :: next :: q) = false := by
  simp [isPending, h]

theorem isPending_of_field_ne {first : Step} (h : first.field ≠ step.field) :
    isPending (step :: p) (first :: q) = false := by
  cases q with
  | nil => simp [isPending, h]
  | cons next q => exact isPending_of_ne fun heq => h (by rw [heq])

theorem isPending_of_field_eq {first : Step} (h : first.field = step.field) :
    isPending (step :: p) [first] = true := by
  simp [isPending, h]

/-! ## The way to the call that failed -/

/-- What becomes of a node below which a call fails, one step down. Its fields up to the one of the step may
have been passed over, and those behind it are as they were. A list on the way has all its slots. Those before
the index of the step are as empty as they were, and those behind it are as they were. -/
structure HaltedIn (step : Step) (n m : Node) : Prop where
  kind : m.kind = n.kind
  get? : ∃ before behind, n.kind.fields = before ++ step.field :: behind ∧
    ∀ name, name ∉ before → name ≠ step.field → m.get? name = n.get? name
  slots : ∀ i, step.index = some i → ∃ slots slots', n.get? step.field = some (.list slots) ∧
    m.get? step.field = some (.list slots') ∧ slots'.length = slots.length ∧
    (∀ j, j < i → slots'[j]?.map Option.isSome = slots[j]?.map Option.isSome) ∧
    ∀ j, i < j → slots'[j]? = slots[j]?

/-- The fates below a position are those that are carried out until a call fails. -/
def HaltMatches (fate : Path → Settled) (base : Path) (calls : List Call) (p : Path) : Prop :=
  ∀ step q, fate (base ++ step :: q)
    = if isPending p (step :: q) then .keep else decided calls (base ++ step :: q)

/-- What the calls of a visit that is cut short tell. -/
structure Interrupts (halted : Path → Node → List Call → Call → Path → Node → Prop) : Prop where
  path_eq : ∀ {base n calls call p r}, halted base n calls call p r → call.path = base ++ p
  at?_eq : ∀ {base n calls call p r}, halted base n calls call p r → r.at? p = some call.left
  isPrefix : ∀ {base n calls call p r}, halted base n calls call p r → ∀ c ∈ calls, base <+: c.path
  tells : ∀ {base n calls call p r}, halted base n calls call p r →
    ∀ fate, HaltMatches fate base (calls ++ [call]) p → Tells (calls ++ [call]) (Found fate base r)
  above : ∀ {base n calls call p r}, halted base n calls call p r →
    ∀ a step q, p = a ++ step :: q → ∃ entered ∈ calls, entered.path = base ++ a ∧
      entered.entering = true ∧ ∃ m, r.at? a = some m ∧ HaltedIn step entered.left m

section

variable {below : Path → Node → List Call → Settled → Node → Prop}
  {halted : Path → Node → List Call → Call → Path → Node → Prop} {fate : Path → Settled} {base : Path}
  {name : String} {names : List String} {n r : Node} {calls : List Call} {call : Call}

/-- A pass over a field that is cut short goes one step down. -/
theorem step_of_fieldHalted (h : FieldHalted below halted base name n calls call p r) :
    ∃ index p' c c' before calls', p = ⟨name, index⟩ :: p' ∧ calls = before ++ calls' ∧
      halted (base ++ [⟨name, index⟩]) c calls' call p' c' ∧ r.step? ⟨name, index⟩ = some c' := by
  cases h with
  | child hget hchild =>
      exact ⟨none, _, _, _, [], _, rfl, rfl, hchild, child?_eq_some_iff.mpr (get?_set_self ..)⟩
  | list hget hslots =>
      cases hslots with
      | @slot slots left rest _ _ _ c c' _ _ hbefore hslot =>
          refine ⟨_, _, _, _, _, _, rfl, rfl, hslot, step?_slot_eq_some_iff.mpr ⟨_, get?_set_self .., ?_⟩⟩
          rw [Nat.zero_add, ← hbefore.length_eq.1]
          simp

theorem step_of_fieldsHalted (h : FieldsHalted below halted base names n calls call p r) :
    ∃ step p' c c' before calls', p = step :: p' ∧ calls = before ++ calls' ∧
      halted (base ++ [step]) c calls' call p' c' ∧ r.step? step = some c' := by
  cases h with
  | field _ hfield =>
      obtain ⟨index, p', c, c', before, calls', hp, hcalls, hchild, hstep⟩ := step_of_fieldHalted hfield
      exact ⟨_, p', c, c', _, calls', hp, by rw [hcalls, List.append_assoc], hchild, hstep⟩

theorem frame_of_fieldHalted (h : FieldHalted below halted base name n calls call p r) :
    r.kind = n.kind ∧ ∀ other, other ≠ name → r.get? other = n.get? other := by
  cases h with
  | child _ _ => exact ⟨rfl, fun _ hne => get?_set_of_ne hne⟩
  | list _ _ => exact ⟨rfl, fun _ hne => get?_set_of_ne hne⟩

/-- A list in which a call failed has all its slots, and only those that were visited can have changed. -/
theorem slots_of_slotsHalted {slots left : List (Option Node)} {i : Nat} {p' : Path}
    (h : SlotsHalted below halted base name 0 slots calls call p left) (hp : p = ⟨name, some i⟩ :: p') :
    left.length = slots.length ∧
      (∀ j, j < i → left[j]?.map Option.isSome = slots[j]?.map Option.isSome) ∧
      ∀ j, i < j → left[j]? = slots[j]? := by
  cases h with
  | @slot slots left rest _ _ _ c c' _ _ hvisited _ =>
      rw [Nat.zero_add, List.cons.injEq, Step.mk.injEq, Option.some.injEq] at hp
      obtain ⟨⟨_, rfl⟩, _⟩ := hp
      have hlength := hvisited.length_eq.1
      refine ⟨by simp [hlength], fun j hj => ?_, fun j hj => ?_⟩
      · rw [List.getElem?_append_left (by omega), List.getElem?_append_left (by omega),
          ← List.getElem?_map, ← List.getElem?_map, hvisited.map_isSome]
      · obtain ⟨k, hk⟩ : ∃ k, j - slots.length = k + 1 := ⟨j - slots.length - 1, by omega⟩
        rw [List.getElem?_append_right (by omega), List.getElem?_append_right (by omega), hlength, hk]
        rfl

/-- What is left of a node in one of whose fields a call failed. -/
theorem haltedIn_of_fieldsHalted {index : Option Nat} {p' : Path}
    (h : FieldsHalted below halted base n.kind.fields n calls call p r) (hp : p = ⟨name, index⟩ :: p') :
    HaltedIn ⟨name, index⟩ n r := by
  have hnodup := nodup_fields n.kind
  generalize hnames : n.kind.fields = names at h hnodup
  cases h with
  | @field before behind name' _ m _ calls calls' _ _ hbefore hfield =>
      have hfresh : name' ∉ before :=
        fun hmem => (List.nodup_append.mp hnodup).2.2 name' hmem name' List.mem_cons_self rfl
      obtain ⟨hkind, hget⟩ := frame_of_fieldHalted hfield
      obtain rfl : name' = name := by
        obtain ⟨_, _, _, _, _, _, rfl, _⟩ := step_of_fieldHalted hfield
        cases hp
        rfl
      refine ⟨hkind.trans hbefore.frame.1, ⟨before, behind, hnames, ?_⟩, ?_⟩
      · intro other hother hne
        rw [hget other hne, hbefore.frame.2 other hother]
      · rintro i rfl
        cases hfield with
        | child _ _ => cases hp
        | list hlist hslots =>
            rw [hbefore.frame.2 name' hfresh] at hlist
            exact ⟨_, _, hlist, get?_set_self .., slots_of_slotsHalted hslots hp⟩

/-- One step down, the calls before do not count. -/
theorem haltMatches_below {before calls' : List Call} {p' : Path}
    (hfate : ∀ q, fate (base ++ step :: q)
      = if isPending (step :: p') (step :: q) then .keep
        else decided (before ++ (calls' ++ [call])) (base ++ step :: q))
    (hbefore : ∀ q, ∀ c ∈ before, c.path ≠ base ++ step :: q) :
    HaltMatches fate (base ++ [step]) (calls' ++ [call]) p' := by
  intro next q
  rw [List.append_assoc]
  show fate (base ++ step :: next :: q)
    = if _ then Settled.keep else decided _ (base ++ step :: next :: q)
  rw [hfate, isPending_cons_cons, decided_append_right (hbefore _)]

variable (hbelow : Faithful below) (hhalted : Interrupts halted)
include hbelow hhalted

theorem through_fieldHalted (h : FieldHalted below halted base name n calls call p r) :
    Through base [name] (calls ++ [call]) := by
  have hchild : ∀ {step : Step} {c c' : Node} {calls : List Call} {p : Path}, step.field = name →
      halted (base ++ [step]) c calls call p c' → Through base [name] (calls ++ [call]) := by
    intro step c c' calls p hstep hchild
    apply Through.append
    · intro d hd
      obtain ⟨q, hq⟩ := hhalted.isPrefix hchild d hd
      exact ⟨step, q, by simp [hstep], by rw [← hq, List.append_assoc]; rfl⟩
    · intro d hd
      rw [List.mem_singleton.mp hd, hhalted.path_eq hchild, List.append_assoc]
      exact ⟨step, p, by simp [hstep], rfl⟩
  cases h with
  | child _ h => exact hchild rfl h
  | list _ hslots =>
      cases hslots with
      | slot hbefore hslot =>
          rw [List.append_assoc]
          exact (throughSlots hbelow hbefore).through.append (hchild rfl hslot)

theorem tells_slotsHalted {slots left : List (Option Node)}
    (h : SlotsHalted below halted base name 0 slots calls call p left)
    (hfate : ∀ step q, step.field = name → fate (base ++ step :: q)
      = if isPending p (step :: q) then .keep else decided (calls ++ [call]) (base ++ step :: q)) :
    Tells (calls ++ [call]) (FoundInSlots fate base name 0 left) := by
  cases h with
  | @slot slots left rest calls calls' fates c c' _ p hbefore hslot =>
      rw [Nat.zero_add] at hslot hfate
      have hthrough := throughSlots hbelow hbefore
      have hlength := hbefore.length_eq.1
      rw [List.append_assoc] at hfate ⊢
      refine Tells.append ?_ ?_ fun _ _ more h => h.append more
      · -- the slots before the failing one, which are visited
        have hslots : Tells calls (FoundInSlots fate base name 0 left) := by
          apply tells_slots hbelow hbefore
          intro j next q _ hj
          have hne : (⟨name, some j⟩ : Step) ≠ ⟨name, some slots.length⟩ := by
            intro heq
            rw [Step.mk.injEq, Option.some.injEq] at heq
            omega
          rw [hfate ⟨name, some j⟩ (next :: q) rfl, isPending_of_ne hne]
          apply decided_append_left
          intro d hd heq
          have hprefix : base ++ [⟨name, some slots.length⟩] <+: d.path := by
            rcases List.mem_append.mp hd with hd | hd
            · exact hhalted.isPrefix hslot d hd
            · rw [List.mem_singleton.mp hd, hhalted.path_eq hslot]
              exact List.prefix_append ..
          rw [heq, List.prefix_append_right_inj, List.cons_prefix_cons] at hprefix
          exact hne hprefix.1.symm
        refine hslots.imp ?_
        rintro met later ⟨j, q, d, hpath, hd, hfound⟩
        refine ⟨j, q, d, hpath, ?_, hfound⟩
        rw [List.getElem?_append_left (List.getElem?_eq_some_iff.mp hd).1, hd]
      · -- the failing slot
        have hmatches := haltMatches_below
          (fun q => hfate ⟨name, some slots.length⟩ q rfl) fun q => hthrough.ne_of_lt (.inr (by omega)) q
        refine (hhalted.tells hslot fate hmatches).imp ?_
        rintro met later ⟨q, hpath, hfound⟩
        rw [← hlength] at hpath hfound
        refine ⟨left.length, q, c', ?_, by simp, ?_⟩
        · rw [hpath, Nat.zero_add, List.append_assoc]
          rfl
        · rw [Nat.zero_add]
          exact hfound

theorem tells_fieldHalted (h : FieldHalted below halted base name n calls call p r)
    (hfate : ∀ step q, step.field = name → fate (base ++ step :: q)
      = if isPending p (step :: q) then .keep else decided (calls ++ [call]) (base ++ step :: q)) :
    Tells (calls ++ [call]) (FoundBelow fate base [name] r) := by
  cases h with
  | @child c c' calls _ p hget hchild =>
      have hmatches : HaltMatches fate (base ++ [⟨name, none⟩]) (calls ++ [call]) p := by
        have hnone : ∀ q, ∀ c ∈ ([] : List Call), c.path ≠ base ++ ⟨name, none⟩ :: q := by simp
        exact haltMatches_below (fun q => hfate ⟨name, none⟩ q rfl) hnone
      have hstep : (n.set name (.child c')).step? ⟨name, none⟩ = some c' :=
        child?_eq_some_iff.mpr (get?_set_self ..)
      exact (hhalted.tells hchild fate hmatches).imp fun _ _ hfound => hfound.foundBelow hstep
  | @list slots left calls _ p hget hslots =>
      -- Nothing is carried out in the list, so that no slot of it has moved.
      have hpending : ∀ k, fate (base ++ [⟨name, some k⟩]) = .keep := by
        intro k
        rw [hfate ⟨name, some k⟩ [] rfl]
        cases hslots with
        | slot _ _ => exact if_pos (isPending_of_field_eq (by rfl))
      refine (tells_slotsHalted hbelow hhalted hslots hfate).imp ?_
      intro met later hfound
      apply hfound.foundBelow (get?_set_self ..)
      intro j c hj _
      rw [slotsBefore_of_one fun k => by rw [hpending]; rfl, hj]

theorem through_fieldsHalted (h : FieldsHalted below halted base names n calls call p r) :
    Through base names (calls ++ [call]) := by
  cases h with
  | field hbefore hfield =>
      rw [List.append_assoc]
      apply Through.append
      · exact (through_fields hbelow hbefore).mono (by simp)
      · exact (through_fieldHalted hbelow hhalted hfield).mono (by simp)

theorem tells_fieldsHalted (h : FieldsHalted below halted base names n calls call p r)
    (hnodup : names.Nodup) (hmatches : HaltMatches fate base (calls ++ [call]) p) :
    Tells (calls ++ [call]) (FoundBelow fate base names r) := by
  cases h with
  | @field names names' name _ m _ calls calls' _ _ hbefore hfield =>
      obtain ⟨hnodupBefore, _, hdisjoint⟩ := List.nodup_append.mp hnodup
      have hfresh : name ∉ names := fun hmem => hdisjoint name hmem name List.mem_cons_self rfl
      have hthrough := through_fields hbelow hbefore
      rw [List.append_assoc] at hmatches ⊢
      refine Tells.append ?_ ?_ fun _ _ more h => h.append more
      · -- the fields before, which are visited
        have htells : Tells calls (FoundBelow fate base names m) := by
          apply tells_fields hbelow hbefore hnodupBefore
          intro step q hstep
          obtain ⟨index, p', _, _, _, _, rfl, _⟩ := step_of_fieldHalted hfield
          have hne : step.field ≠ name := fun heq => hfresh (heq ▸ hstep)
          rw [hmatches, isPending_of_field_ne hne]
          refine decided_append_left ((through_fieldHalted hbelow hhalted hfield).ne_of_field ?_ q)
          rwa [List.mem_singleton]
        refine htells.imp fun met later h => h.congr (by simp) fun other hother => ?_
        exact (frame_of_fieldHalted hfield).2 other fun heq => hfresh (heq ▸ hother)
      · have htells : Tells (calls' ++ [call]) (FoundBelow fate base [name] r) := by
          apply tells_fieldHalted hbelow hhalted hfield
          intro step q hstep
          rw [hmatches, decided_append_right (hthrough.ne_of_field (by rwa [hstep]) q)]
        exact htells.imp fun met later h => h.congr (by simp) fun _ _ => rfl

/-- A node that was entered remains if a call below it fails. -/
theorem remains_fieldsHalted {entered : Call} (hpath : entered.path = base) (hleft : entered.left = n)
    (h : FieldsHalted below halted base n.kind.fields n calls call p r) :
    Remains entered (calls ++ [call]) r := by
  subst hleft
  have hthrough := through_fieldsHalted hbelow hhalted h
  have hframe : r.kind = entered.left.kind ∧
      ∀ other, other ∉ entered.left.kind.fields → r.get? other = entered.left.get? other := by
    generalize hnames : entered.left.kind.fields = names at h
    cases h with
    | field hbefore hfield =>
        obtain ⟨hkind, hget⟩ := frame_of_fieldHalted hfield
        refine ⟨hkind.trans hbefore.frame.1, fun other hother => ?_⟩
        rw [List.mem_append, List.mem_cons, not_or, not_or] at hother
        rw [hget other hother.2.1, hbefore.frame.2 other hother.1]
  refine ⟨hframe.1, hframe.2, fun hall => ?_⟩
  obtain ⟨step, q, _, hcall⟩ := hthrough call (by simp)
  have heq := hall call (by simp) (by rw [hpath, hcall]; exact List.prefix_append ..)
  exact absurd (heq.trans hpath) (hthrough.ne_base call (by simp))

theorem interrupts_node : Interrupts fun base => NodeHalted below halted base where
  path_eq := by
    intro base n calls call p r h
    cases h with
    | entering => exact (List.append_nil base).symm
    | leaving _ => exact (List.append_nil base).symm
    | inside hfields =>
        obtain ⟨step, p', c, c', _, _, rfl, _, hchild, _⟩ := step_of_fieldsHalted hfields
        rw [hhalted.path_eq hchild, List.append_assoc]
        rfl
  at?_eq := by
    intro base n calls call p r h
    cases h with
    | entering => rfl
    | leaving _ => rfl
    | inside hfields =>
        obtain ⟨step, p', c, c', _, _, rfl, _, hchild, hstep⟩ := step_of_fieldsHalted hfields
        rw [at?_cons, hstep]
        exact hhalted.at?_eq hchild
  isPrefix := by
    intro base n calls call p r h
    have hcons : ∀ {entered : Call} {calls : List Call} {names : List String}, entered.path = base →
        Through base names calls → ∀ c ∈ entered :: calls, base <+: c.path := by
      intro entered calls names hpath hthrough c hc
      rcases List.mem_cons.mp hc with rfl | hc
      · exact hpath ▸ List.prefix_rfl
      · obtain ⟨step, q, _, hc⟩ := hthrough c hc
        rw [hc]
        exact List.prefix_append ..
    cases h with
    | entering => intro c hc; cases hc
    | leaving hinside => exact hcons rfl (through_inside hbelow hinside)
    | inside hfields =>
        have hthrough := through_fieldsHalted hbelow hhalted hfields
        exact hcons rfl fun c hc => hthrough c (List.mem_append_left _ hc)
  tells := by
    intro base n calls call p r h fate hmatches
    cases h with
    | entering => exact tells_singleton rfl
    | @leaving seen seen' m r₀ _ outcome calls error hinside =>
        let last : Call := ⟨base, false, seen', r₀, r, .error error⟩
        have hcloses : Closes base r₀ [last] r := .inr ⟨last, rfl, rfl, rfl, rfl⟩
        have hall : Matches fate base (⟨base, true, seen, n, m, .ok outcome⟩ :: (calls ++ [last])) := by
          intro step q
          rw [hmatches, isPending_nil]
          rfl
        have hinner := hall.inner (by rfl) hcloses.path_eq
        exact tells_node (by rfl) (remains_inside hbelow (by rfl) (by rfl) hinside)
          (tells_inside hbelow hinside hinner) (through_inside hbelow hinside) hcloses
    | @inside seen m _ calls _ _ hfields =>
        have hinner : HaltMatches fate base (calls ++ [call]) p := by
          intro step q
          rw [hmatches, List.cons_append, decided_cons (by simp)]
        have hcloses : Closes base r [] r := .inl ⟨rfl, rfl⟩
        have htells : Tells (⟨base, true, seen, n, m, .ok .kept⟩ :: (calls ++ [call] ++ []))
            (Found fate base r) :=
          tells_node (by rfl) (remains_fieldsHalted hbelow hhalted (by rfl) (by rfl) hfields)
            (tells_fieldsHalted hbelow hhalted hfields (nodup_fields _) hinner)
            (through_fieldsHalted hbelow hhalted hfields) hcloses
        rw [List.append_nil] at htells
        exact htells
  above := by
    intro base n calls call p r h a step q hp
    cases h with
    | entering => simp at hp
    | leaving _ => simp at hp
    | inside hfields =>
        cases a with
        | nil =>
            refine ⟨_, List.mem_cons_self, (List.append_nil base).symm, rfl, r, rfl, ?_⟩
            exact haltedIn_of_fieldsHalted hfields hp
        | cons first a =>
            obtain ⟨first', p', c, c', before, calls', rfl, rfl, hchild, hstep⟩ :=
              step_of_fieldsHalted hfields
            rw [List.cons_append, List.cons.injEq] at hp
            obtain ⟨rfl, rfl⟩ := hp
            obtain ⟨entered, hmem, hpath, hentering, m, hm, hhaltedIn⟩ :=
              hhalted.above hchild a step q rfl
            refine ⟨entered, by simp [hmem], ?_, hentering, m, ?_, hhaltedIn⟩
            · rw [hpath, List.append_assoc]
              rfl
            · rw [at?_cons, hstep]
              exact hm

end

theorem interrupts_haltedWithin (levels : Nat) : Interrupts (HaltedWithin levels) := by
  induction levels with
  | zero => exact ⟨fun h => h.elim, fun h => h.elim, fun h => h.elim, fun h => h.elim, fun h => h.elim⟩
  | succ levels ih => exact interrupts_node (faithful_visitedWithin levels) ih

end History

/-! ## Empty places -/

/-- The field holds something: it is not null, and no slot of it is a hole. -/
def Field.isFilled : Field Node → Bool
  | .value .null => false
  | .value _ | .child _ => true
  | .list slots => slots.all Option.isSome

/-- The fields of the node are filled, but for those that may lack something. -/
def Node.isFilled (mayLack : Kind → String → Bool) (n : Node) : Bool :=
  n.fields.all fun (name, content) => mayLack n.kind name || content.isFilled

/-- No place in the tree is empty, but for those that may be. -/
def Node.Whole (mayLack : Kind → String → Bool) (n : Node) : Prop := n.all (isFilled mayLack) = true

/-- The call left no empty place, neither in its node nor in the nodes that are to take its place. -/
def Call.LeavesWhole (mayLack : Kind → String → Bool) (call : Call) : Prop :=
  call.left.Whole mayLack ∧
    ∀ nodes, call.verdict = .ok (.spliced nodes) → ∀ n ∈ nodes, n.Whole mayLack

namespace History

variable {mayLack : Kind → String → Bool} {kind : Kind} {name : String} {n : Node}

/-- No place in the field of a node of the kind is empty, but for those that may be. -/
def WholeIn (mayLack : Kind → String → Bool) (kind : Kind) (name : String) (content : Field Node) : Prop :=
  (mayLack kind name = true ∨ content.isFilled = true) ∧ allInField (isFilled mayLack) content = true

theorem whole_iff : n.Whole mayLack ↔ ∀ entry ∈ n.fields, WholeIn mayLack n.kind entry.1 entry.2 := by
  obtain ⟨kind, fields⟩ := n
  rw [Node.Whole, Node.all, Bool.and_eq_true, allInFields_iff, isFilled, List.all_eq_true, ← forall₂_and]
  simp only [WholeIn, Bool.or_eq_true]

theorem wholeIn_of_get? (h : n.Whole mayLack) {content : Field Node} (hget : n.get? name = some content) :
    WholeIn mayLack n.kind name content :=
  whole_iff.mp h _ (Entries.mem_of_get?_eq_some hget)

theorem whole_set (h : n.Whole mayLack) {content : Field Node}
    (hcontent : WholeIn mayLack n.kind name content) : (n.set name content).Whole mayLack := by
  rw [whole_iff]
  intro entry hentry
  rcases Entries.mem_set hentry with rfl | hentry
  · exact hcontent
  · exact whole_iff.mp h entry hentry

theorem whole_erase (h : n.Whole mayLack) : (n.erase name).Whole mayLack := by
  rw [whole_iff]
  exact fun entry hentry => whole_iff.mp h entry (Entries.mem_of_mem_erase hentry)

theorem wholeIn_child {c : Node} (h : c.Whole mayLack) : WholeIn mayLack kind name (.child c) :=
  ⟨.inr rfl, h⟩

theorem wholeIn_list {slots : List (Option Node)} :
    WholeIn mayLack kind name (.list slots) ↔
      (none ∈ slots → mayLack kind name = true) ∧ ∀ m, some m ∈ slots → m.Whole mayLack := by
  have hfilled : Field.isFilled (.list slots) = true ↔ none ∉ slots := by
    rw [Field.isFilled, List.all_eq_true]
    constructor
    · exact fun h hmem => nomatch h none hmem
    · intro h slot hslot
      cases slot with
      | none => exact absurd hslot h
      | some m => rfl
  rw [WholeIn, hfilled, allInField, allInSlots_iff]
  refine and_congr_left fun _ => ?_
  tauto

/-- A slot of a rebuilt list is one that was left, or one of the nodes that take the place of a slot. -/
theorem mem_compactSlots {left : List (Option Node)} {fates : List Settled} {slot : Option Node}
    (h : slot ∈ compactSlots left fates) :
    slot ∈ left ∨ ∃ nodes, .flatten nodes ∈ fates ∧ ∃ m ∈ nodes, slot = some m := by
  obtain ⟨⟨old, fate⟩, hmem, hslot⟩ := List.mem_flatMap.mp h
  obtain ⟨hold, hfate⟩ := List.of_mem_zip hmem
  cases fate with
  | keep =>
      rw [List.mem_singleton.mp hslot]
      exact .inl hold
  | remove => cases hslot
  | flatten nodes =>
      obtain ⟨m, hm, rfl⟩ := List.mem_map.mp hslot
      exact .inr ⟨nodes, hfate, m, hm, rfl⟩

/-- If no call of a visit leaves an empty place, nor does the visit. -/
def KeepsWhole (mayLack : Kind → String → Bool)
    (below : Path → Node → List Call → Settled → Node → Prop) : Prop :=
  ∀ {base n calls settled r}, below base n calls settled r → (∀ c ∈ calls, c.LeavesWhole mayLack) →
    r.Whole mayLack ∧ ∀ nodes, settled = .flatten nodes → ∀ m ∈ nodes, m.Whole mayLack

section

variable {below : Path → Node → List Call → Settled → Node → Prop}
  {halted : Path → Node → List Call → Call → Path → Node → Prop} {base p : Path} {names : List String}
  {calls : List Call} {call : Call} {r : Node} (hbelow : KeepsWhole mayLack below)
include hbelow

theorem whole_slots {i : Nat} {slots left : List (Option Node)} {fates : List Settled}
    (h : SlotsVisited below base name i slots calls fates left)
    (hcalls : ∀ c ∈ calls, c.LeavesWhole mayLack) :
    (none ∈ left → none ∈ slots) ∧ (∀ m, some m ∈ left → m.Whole mayLack) ∧
      ∀ nodes, .flatten nodes ∈ fates → ∀ m ∈ nodes, m.Whole mayLack := by
  induction h with
  | nil => simp
  | hole _ ih =>
      obtain ⟨_, hnodes, hfates⟩ := ih hcalls
      refine ⟨fun _ => List.mem_cons_self, fun m hm => ?_, fun nodes hmem => ?_⟩
      · exact hnodes m (by simpa using hm)
      · exact hfates nodes (by simpa using hmem)
  | node hfirst _ ih =>
      obtain ⟨hcallsFirst, hcallsRest⟩ := List.forall_mem_append.mp hcalls
      obtain ⟨hwhole, hflatten⟩ := hbelow hfirst hcallsFirst
      obtain ⟨hholes, hnodes, hfates⟩ := ih hcallsRest
      refine ⟨fun hmem => ?_, fun m hm => ?_, fun nodes hmem => ?_⟩
      · exact List.mem_cons_of_mem _ (hholes (by simpa using hmem))
      · rcases List.mem_cons.mp hm with heq | hm
        · cases heq
          exact hwhole
        · exact hnodes m hm
      · rcases List.mem_cons.mp hmem with heq | hmem
        · exact hflatten nodes heq.symm
        · exact hfates nodes hmem

theorem whole_field (h : FieldVisited below base name n calls r) (hn : n.Whole mayLack)
    (hcalls : ∀ c ∈ calls, c.LeavesWhole mayLack) : r.Whole mayLack := by
  cases h with
  | skipped => exact hn
  | kept _ hchild => exact whole_set hn (wholeIn_child (hbelow hchild hcalls).1)
  | removed _ _ => exact whole_erase hn
  | list hget hslots =>
      obtain ⟨hholes, hnodes, hfates⟩ := whole_slots hbelow hslots hcalls
      refine whole_set hn (wholeIn_list.mpr ⟨fun hmem => ?_, fun m hm => ?_⟩)
      · rcases mem_compactSlots hmem with hmem | ⟨_, _, _, _, heq⟩
        · exact (wholeIn_list.mp (wholeIn_of_get? hn hget)).1 (hholes hmem)
        · cases heq
      · rcases mem_compactSlots hm with hm | ⟨nodes, hmem, m', hm', heq⟩
        · exact hnodes m hm
        · cases heq
          exact hfates nodes hmem m hm'

theorem whole_fields (h : FieldsVisited below base names n calls r) (hn : n.Whole mayLack)
    (hcalls : ∀ c ∈ calls, c.LeavesWhole mayLack) : r.Whole mayLack := by
  induction h with
  | nil => exact hn
  | cons hfirst _ ih =>
      obtain ⟨hcallsFirst, hcallsRest⟩ := List.forall_mem_append.mp hcalls
      exact ih (whole_field hbelow hfirst hn hcallsFirst) hcallsRest

theorem whole_inside {m : Node} {outcome : Outcome} (h : InsideVisited below base m outcome calls r)
    (hm : m.Whole mayLack) (hcalls : ∀ c ∈ calls, c.LeavesWhole mayLack) : r.Whole mayLack := by
  cases h with
  | replaced => exact hm
  | kept hfields => exact whole_fields hbelow hfields hm hcalls

omit hbelow in
/-- The nodes that are to take the place of a node are those of the decision. -/
theorem whole_of_settle {outcome : Outcome} {nodes : List Node} (h : call.LeavesWhole mayLack)
    (hverdict : call.verdict = .ok outcome) (hsettle : outcome.settle = .flatten nodes) :
    ∀ m ∈ nodes, m.Whole mayLack := by
  cases outcome with
  | spliced nodes' =>
      cases hsettle
      exact h.2 nodes hverdict
  | kept => cases hsettle
  | replaced => cases hsettle
  | removed => cases hsettle

theorem keepsWhole_node : KeepsWhole mayLack fun base => NodeVisited below base := by
  intro base n calls settled r h hcalls
  cases h with
  | dropped =>
      have hcall := hcalls _ (List.mem_singleton_self _)
      exact ⟨hcall.1, fun nodes hsettle => whole_of_settle hcall rfl hsettle⟩
  | settled hinside hleaving =>
      obtain ⟨hentered, hrest⟩ := List.forall_mem_cons.mp hcalls
      obtain ⟨hinner, hlast⟩ := List.forall_mem_append.mp hrest
      have hwhole := whole_inside hbelow hinside hentered.1 hinner
      cases hleaving with
      | unhooked => exact ⟨hwhole, fun _ h => nomatch h⟩
      | hooked =>
          have hcall := hlast _ (List.mem_singleton_self _)
          exact ⟨hcall.1, fun nodes hsettle => whole_of_settle hcall rfl hsettle⟩

variable (hhalted : ∀ {base n calls call p r}, halted base n calls call p r →
  (∀ c ∈ calls ++ [call], c.LeavesWhole mayLack) → r.Whole mayLack)
include hhalted

theorem whole_fieldHalted (h : FieldHalted below halted base name n calls call p r) (hn : n.Whole mayLack)
    (hcalls : ∀ c ∈ calls ++ [call], c.LeavesWhole mayLack) : r.Whole mayLack := by
  cases h with
  | child _ hchild => exact whole_set hn (wholeIn_child (hhalted hchild hcalls))
  | list hget hslots =>
      cases hslots with
      | slot hbefore hslot =>
          rw [List.append_assoc] at hcalls
          obtain ⟨hcallsBefore, hcallsSlot⟩ := List.forall_mem_append.mp hcalls
          obtain ⟨hholes, hnodes, _⟩ := whole_slots hbelow hbefore hcallsBefore
          obtain ⟨hmayLack, hold⟩ := wholeIn_list.mp (wholeIn_of_get? hn hget)
          refine whole_set hn (wholeIn_list.mpr ⟨fun hmem => hmayLack ?_, fun m hm => ?_⟩)
          · rcases List.mem_append.mp hmem with hmem | hmem
            · exact List.mem_append_left _ (hholes hmem)
            · exact List.mem_append_right _ (List.mem_cons_of_mem _ (by simpa using hmem))
          · rcases List.mem_append.mp hm with hm | hm
            · exact hnodes m hm
            rcases List.mem_cons.mp hm with heq | hm
            · cases heq
              exact hhalted hslot hcallsSlot
            · exact hold m (List.mem_append_right _ (List.mem_cons_of_mem _ hm))

theorem whole_nodeHalted (h : NodeHalted below halted base n calls call p r)
    (hcalls : ∀ c ∈ calls ++ [call], c.LeavesWhole mayLack) : r.Whole mayLack := by
  have hlast := hcalls call (by simp)
  cases h with
  | entering => exact hlast.1
  | leaving _ => exact hlast.1
  | @inside _ m _ _ _ _ hfields =>
      obtain ⟨hentered, hrest⟩ := List.forall_mem_cons.mp hcalls
      have hm : m.Whole mayLack := hentered.1
      generalize m.kind.fields = names at hfields
      cases hfields with
      | field hbefore hfield =>
          rw [List.append_eq, List.append_assoc] at hrest
          obtain ⟨hcallsBefore, hcallsField⟩ := List.forall_mem_append.mp hrest
          exact whole_fieldHalted hbelow hhalted hfield (whole_fields hbelow hbefore hm hcallsBefore)
            hcallsField

end

theorem keepsWhole_visitedWithin (levels : Nat) : KeepsWhole mayLack (VisitedWithin levels) := by
  induction levels with
  | zero => exact fun h => h.elim
  | succ levels ih => exact keepsWhole_node ih

theorem whole_haltedWithin (levels : Nat) {base : Path} {calls : List Call} {call : Call} {p : Path} {r : Node}
    (h : HaltedWithin levels base n calls call p r)
    (hcalls : ∀ c ∈ calls ++ [call], c.LeavesWhole mayLack) : r.Whole mayLack := by
  induction levels generalizing base n calls call p r with
  | zero => exact h.elim
  | succ levels ih => exact whole_nodeHalted (keepsWhole_visitedWithin levels) ih h hcalls

end History

/-! ## What a failure leaves -/

open History

/-- What is left of a tree if the last call of a walk fails. -/
structure Interrupted (before : List Call) (call : Call) (tree : Node) : Prop where
  /-- The node is back in its slot, as the call left it. All else is as the call saw it. -/
  restored : tree.at? call.path = some call.left ∧ tree = call.seen.attach call.left call.path
  /-- A node that was visited remains where its path leads now, if neither it nor a node above it was taken out by
  what is carried out, and if the later calls at it or above it leave their node as they meet it. -/
  remains : ∀ earlier met later, before ++ [call] = earlier ++ met :: later →
    (∀ c ∈ later, c.path <+: met.path → c.left = c.given) →
    (∀ q, q ≠ [] → q <+: met.path → carriedOut (before ++ [call]) call.path q = .keep) →
    ∃ n, tree.at? (movedTo (carriedOut (before ++ [call]) call.path) [] met.path) = some n ∧
      Remains met later n
  /-- The nodes on the way to the call are as they were left on entering them, but for what was visited. -/
  above : ∀ above step below, call.path = above ++ step :: below →
    ∃ entered ∈ before, entered.path = above ∧ entered.entering = true ∧
      ∃ n, tree.at? above = some n ∧ HaltedIn step entered.left n
  /-- A place is empty only if a call left an empty place there. -/
  whole : ∀ mayLack, (∀ c ∈ before ++ [call], c.LeavesWhole mayLack) → tree.Whole mayLack

/-- **A failing call leaves no hole.** If a call of a visitor fails, on entering or on leaving a node, it is the
last call, the walk stops with its error, and what is left is told by the calls: the node is back in its
slot, what was visited before remains but for what was carried out or edited from above, the lists on the way have
all their slots, and what comes behind is as it was left on entering the nodes above. -/
theorem Visitor.failure_leaves_no_hole (v : Visitor σ η) (levels : Nat) (tree : Node) (state : σ) {call : Call}
    {error : Error} (hcall : call ∈ v.history levels tree state) (herror : call.verdict = .error error) :
    (v.run levels tree state).stop = some (.failed error) ∧
      ∃ before, v.history levels tree state = before ++ [call] ∧
        Interrupted before call (v.run levels tree state).tree := by
  obtain ⟨hstop, htree, before, p, hhistory, hhalted⟩ := halted_of_mem_history hcall herror
  have hinterrupts := interrupts_haltedWithin levels
  have hpath : call.path = p := hinterrupts.path_eq hhalted
  subst hpath
  refine ⟨hstop, before, hhistory, ⟨hinterrupts.at?_eq hhalted, htree⟩, ?_, ?_, ?_⟩
  · intro earlier met later heq hlater hkept
    have htells := hinterrupts.tells hhalted (carriedOut (before ++ [call]) call.path) fun _ _ => rfl
    obtain ⟨q, hq, hfound⟩ := htells earlier met later heq hlater
    rw [List.nil_append] at hq
    subst hq
    exact hfound hkept
  · exact fun above step below => hinterrupts.above hhalted above step below
  · exact fun mayLack => whole_haltedWithin levels hhalted

/-- The error of a call, if it failed. -/
def Call.error? (call : Call) : Option Error :=
  match call.verdict with
  | .ok _ => none
  | .error error => some error

theorem Call.error?_eq_some_iff {call : Call} {error : Error} :
    call.error? = some error ↔ call.verdict = .error error := by
  unfold Call.error?
  cases call.verdict <;> simp

/-- A program with a block of two statements before two more. -/
def blockThenTwo : Node :=
  let statement (name : String) : Option Node :=
    some ⟨.expressionStatement,
      [("expression", .child ⟨.identifier, [("name", .value (.string name))]⟩)]⟩
  ⟨.program, [("body", .list
    [some ⟨.blockStatement, [("body", .list [statement "a", statement "b"])]⟩, statement "c",
      statement "d"])]⟩

/-- Removes the first statement of the block and the one behind the block, and fails below the last one. -/
def pruning : Visitor Unit Unit where
  enter := do
    let path := (← Action.cursor).path
    if path = [⟨"body", some 0⟩, ⟨"body", some 0⟩] ∨ path = [⟨"body", some 1⟩] then Action.remove
    if path = [⟨"body", some 2⟩, ⟨"expression", none⟩] then throw (.json "stop")
  leave _ := pure ()

theorem Visitor.failure_leaves_no_hole_pruning :
    ∃ call ∈ pruning.history 4 blockThenTwo (), call.verdict = .error (.json "stop") ∧
      (pruning.run 4 blockThenTwo ()).stop = some (.failed (.json "stop")) ∧
      ∃ before, pruning.history 4 blockThenTwo () = before ++ [call] ∧
        Interrupted before call (pruning.run 4 blockThenTwo ()).tree := by
  have hfails : (pruning.history 4 blockThenTwo ()).any (·.error? = some (.json "stop")) = true := by
    decide +kernel
  obtain ⟨call, hcall, herror⟩ := List.any_eq_true.mp hfails
  have hverdict := Call.error?_eq_some_iff.mp (of_decide_eq_true herror)
  exact ⟨call, hcall, hverdict, pruning.failure_leaves_no_hole 4 blockThenTwo () hcall hverdict⟩

/-! ### Edits from above

A call also has the last word on everything below its node, so that neither what was visited nor what is
still to be visited is safe from the calls above it. -/

/-- If no call decided anything, every node that was visited is still there. -/
def KeepsVisited (v : Visitor σ η) (levels : Nat) (tree : Node) (state : σ) : Prop :=
  ∀ before call error, v.history levels tree state = before ++ [call] → call.verdict = .error error →
    (∀ c ∈ before, c.verdict = .ok .kept) →
      ∀ met ∈ before, ∃ n, (v.run levels tree state).tree.at? met.path = some n

/-- What comes behind a call that fails, in a list on the way to it, is as it was in the tree. -/
def KeepsUnvisited (v : Visitor σ η) (levels : Nat) (tree : Node) (state : σ) : Prop :=
  ∀ before call error, v.history levels tree state = before ++ [call] → call.verdict = .error error →
    ∀ above field i j below q, call.path = above ++ ⟨field, some i⟩ :: below → i < j →
      (v.run levels tree state).tree.at? (above ++ ⟨field, some j⟩ :: q)
        = tree.at? (above ++ ⟨field, some j⟩ :: q)

/-- Three statements. -/
def threeStatements : Node :=
  let statement (name : String) : Option Node :=
    some ⟨.expressionStatement,
      [("expression", .child ⟨.identifier, [("name", .value (.string name))]⟩)]⟩
  ⟨.program, [("body", .list [statement "x", statement "y", statement "z"])]⟩

/-- Empties the last statement from the root and the first one on leaving it, and fails at the second. -/
def meddling : Visitor Unit Unit where
  enter := do
    let path := (← Action.cursor).path
    if path = [] then
      Action.updateNode fun n => n.fill ⟨"body", some 2⟩ (some ⟨.emptyStatement, []⟩)
    if path = [⟨"body", some 0⟩] then Action.onLeave ()
    if path = [⟨"body", some 1⟩] then throw (.json "stop")
  leave _ := Action.updateNode fun n => n.erase "expression"

theorem edits_from_above_remain :
    ¬ KeepsVisited meddling 3 threeStatements () ∧ ¬ KeepsUnvisited meddling 3 threeStatements () := by
  have hlast : (meddling.history 3 threeStatements ()).getLast?.map (fun c => (c.path, c.error?))
      = some ([⟨"body", some 1⟩], some (.json "stop")) := by decide +kernel
  obtain ⟨call, hcall, hpair⟩ := Option.map_eq_some_iff.mp hlast
  obtain ⟨hpath, herror⟩ := Prod.mk.inj hpair
  have hhistory := (List.dropLast_append_getLast? call hcall).symm
  have hverdict := Call.error?_eq_some_iff.mp herror
  constructor
  · intro hkeeps
    -- The identifier in the first statement was met, and no outcome was decided.
    have hkept : ((meddling.history 3 threeStatements ()).dropLast.all fun c =>
        match c.verdict with | .ok .kept => true | _ => false) = true := by decide +kernel
    have hmet : ((meddling.history 3 threeStatements ()).dropLast.any fun c =>
        c.path = [⟨"body", some 0⟩, ⟨"expression", none⟩]) = true := by decide +kernel
    have hgone : ((meddling.run 3 threeStatements ()).tree.at?
        [⟨"body", some 0⟩, ⟨"expression", none⟩]).isNone = true := by decide +kernel
    obtain ⟨met, hmem, hmetPath⟩ := List.any_eq_true.mp hmet
    obtain ⟨n, hn⟩ := hkeeps _ call _ hhistory hverdict (fun c hc => by
      have h := List.all_eq_true.mp hkept c hc
      split at h
      · assumption
      · cases h) met hmem
    rw [of_decide_eq_true hmetPath] at hn
    rw [hn] at hgone
    cases hgone
  · intro hkeeps
    have hbefore : (threeStatements.at? [⟨"body", some 2⟩]).map (·.kind) = some .expressionStatement := by
      decide +kernel
    have hafter : ((meddling.run 3 threeStatements ()).tree.at? [⟨"body", some 2⟩]).map (·.kind)
        = some .emptyStatement := by decide +kernel
    have hsame := hkeeps _ call _ hhistory hverdict [] "body" 1 2 [] [] hpath (by decide)
    rw [List.nil_append] at hsame
    rw [hsame, hbefore] at hafter
    cases hafter

end Minifier
