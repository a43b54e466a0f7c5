import Minifier.Proofs.Edit.History
import Minifier.Proofs.Tree.Traversal

/-!
# Where visited nodes are found again

The calls of a visit tell where its nodes are when the visit is over (`Faithful`, `faithful_visitedWithin`).
A node is where its path leads once the fates of all positions are carried out (`movedTo`), if none of them
took it out: it has moved in its list by what became of the slots before it. There it is as its last call left
it, with what the calls below made of it (`Remains`). Only a later call at the node or above it, on
leaving, can change that, and no such call does if it leaves its own node as it is (`Tells`).
-/

namespace Minifier

open Node

/-- The fate that the decision of a call means. -/
def Call.fate (call : Call) : Settled :=
  match call.verdict with
  | .ok outcome => outcome.settle
  | .error _ => .keep

/-- How many slots become of a slot. -/
def Settled.width : Settled → Nat
  | .keep => 1
  | .remove => 0
  | .flatten nodes => nodes.length

namespace History

/-- What the calls decide for a position. The last one counts. -/
def decided (calls : List Call) (q : Path) : Settled :=
  ((calls.filter fun c => c.path = q).getLast?.map Call.fate).getD .keep

/-- The number of slots that the first slots of a list become, from the number that each becomes. -/
def slotsBefore (width : Nat → Nat) : Nat → Nat
  | 0 => 0
  | j + 1 => width 0 + slotsBefore (fun k => width (k + 1)) j

/-- Where a path leads once the fates of the positions are carried out. The slots of a list move by what
becomes of the slots before them. -/
def movedTo (fate : Path → Settled) : Path → Path → Path
  | _, [] => []
  | base, step :: q =>
    ⟨step.field, step.index.map (slotsBefore fun j => (fate (base ++ [⟨step.field, some j⟩])).width)⟩ ::
      movedTo fate (base ++ [step]) q

/-! ### Decisions -/

variable {first second calls : List Call} {q : Path}

theorem filter_eq_nil (h : ∀ c ∈ calls, c.path ≠ q) : (calls.filter fun c => c.path = q) = [] := by
  rw [List.filter_eq_nil_iff]
  intro c hc
  simpa using h c hc

theorem decided_of_forall_ne (h : ∀ c ∈ calls, c.path ≠ q) : decided calls q = .keep := by
  rw [decided, filter_eq_nil h]
  rfl

theorem decided_append_left (h : ∀ c ∈ second, c.path ≠ q) :
    decided (first ++ second) q = decided first q := by
  rw [decided, List.filter_append, filter_eq_nil h, List.append_nil]
  rfl

theorem decided_append_right (h : ∀ c ∈ first, c.path ≠ q) :
    decided (first ++ second) q = decided second q := by
  rw [decided, List.filter_append, filter_eq_nil h, List.nil_append]
  rfl

theorem decided_cons {call : Call} (h : call.path ≠ q) : decided (call :: calls) q = decided calls q := by
  rw [← List.singleton_append]
  exact decided_append_right (by simpa using h)

theorem decided_concat {call : Call} : decided (calls ++ [call]) call.path = call.fate := by
  simp [decided]

/-! ### Rebuilt lists -/

theorem length_slots (fate : Settled) (slot : Option Node) : (fate.slots slot).length = fate.width := by
  cases fate with
  | keep => rfl
  | remove => rfl
  | flatten nodes => exact List.length_map ..

/-- Slots that all stay do not move. -/
theorem slotsBefore_of_one {width : Nat → Nat} (h : ∀ k, width k = 1) (j : Nat) :
    slotsBefore width j = j := by
  induction j generalizing width with
  | zero => rfl
  | succ j ih => rw [slotsBefore, h 0, ih fun k => h (k + 1), Nat.add_comm]

/-- A slot that is kept is found behind what becomes of the slots before it. -/
theorem getElem?_compactSlots {left : List (Option Node)} {fates : List Settled}
    (hlength : left.length = fates.length) {width : Nat → Nat}
    (hwidth : ∀ k fate, fates[k]? = some fate → width k = fate.width) {j : Nat}
    (hkeep : fates[j]? = some .keep) :
    (compactSlots left fates)[slotsBefore width j]? = left[j]? := by
  induction left generalizing fates width j with
  | nil =>
      rw [List.length_nil, eq_comm, List.length_eq_zero_iff] at hlength
      subst hlength
      cases hkeep
  | cons slot left ih =>
      cases fates with
      | nil => cases hkeep
      | cons fate fates =>
          have hcompact : compactSlots (slot :: left) (fate :: fates)
              = fate.slots slot ++ compactSlots left fates := rfl
          cases j with
          | zero =>
              cases hkeep
              rfl
          | succ j =>
              have hfirst : width 0 = fate.width := hwidth 0 fate rfl
              rw [slotsBefore, hfirst, hcompact,
                List.getElem?_append_right (by rw [length_slots]; omega), length_slots,
                Nat.add_sub_cancel_left, List.getElem?_cons_succ]
              exact ih (Nat.succ.inj hlength) (fun k fate h => hwidth (k + 1) fate h) hkeep

/-! ## Where calls are found again -/

/-- A node is the one that a call left, with what later calls below made of it. -/
structure Remains (call : Call) (later : List Call) (n : Node) : Prop where
  kind : n.kind = call.left.kind
  get? : ∀ name, name ∉ call.left.kind.fields → n.get? name = call.left.get? name
  eq_left : (∀ c ∈ later, call.path <+: c.path → c.path = call.path) → n = call.left

theorem Remains.append {call : Call} {later : List Call} {n : Node} (h : Remains call later n)
    (more : List Call) : Remains call (later ++ more) n :=
  ⟨h.kind, h.get?, fun hall => h.eq_left fun c hc => hall c (List.mem_append_left _ hc)⟩

theorem remains_left (call : Call) (later : List Call) : Remains call later call.left :=
  ⟨rfl, fun _ _ => rfl, fun _ => rfl⟩

/-- Each call is told of, with the calls behind it, as long as those that are at its position or above it leave
their node as it is. -/
def Tells (calls : List Call) (P : Call → List Call → Prop) : Prop :=
  ∀ earlier met later, calls = earlier ++ met :: later →
    (∀ c ∈ later, c.path <+: met.path → c.left = c.given) → P met later

theorem Tells.nil {P : Call → List Call → Prop} : Tells [] P := by
  intro earlier met later h
  simp at h

theorem Tells.imp {P Q : Call → List Call → Prop} (h : Tells calls P)
    (hPQ : ∀ met later, P met later → Q met later) : Tells calls Q :=
  fun earlier met later heq hlater => hPQ met later (h earlier met later heq hlater)

/-- A call of two lists is in the first or in the second. -/
theorem append_eq_middle {earlier later : List Call} {met : Call}
    (h : first ++ second = earlier ++ met :: later) :
    (∃ later', first = earlier ++ met :: later' ∧ later = later' ++ second) ∨
      ∃ earlier', second = earlier' ++ met :: later := by
  rcases List.append_eq_append_iff.mp h with ⟨between, rfl, hsecond⟩ | ⟨between, rfl, hlater⟩
  · exact .inr ⟨between, hsecond⟩
  · cases between with
    | nil => exact .inr ⟨[], by simpa using hlater.symm⟩
    | cons c between =>
        rw [List.cons_append, List.cons.injEq] at hlater
        obtain ⟨rfl, rfl⟩ := hlater
        exact .inl ⟨between, rfl, rfl⟩

theorem Tells.append {P : Call → List Call → Prop} (hfirst : Tells first P) (hsecond : Tells second P)
    (hmono : ∀ met later more, P met later → P met (later ++ more)) : Tells (first ++ second) P := by
  intro earlier met later heq hlater
  rcases append_eq_middle heq with ⟨later', hfirst', rfl⟩ | ⟨earlier', hsecond'⟩
  · exact hmono met later' second
      (hfirst earlier met later' hfirst' fun c hc => hlater c (List.mem_append_left _ hc))
  · exact hsecond earlier' met later hsecond' hlater

/-- No fate on the way from the base takes a position out. -/
def Kept (fate : Path → Settled) (base q : Path) : Prop :=
  ∀ r, r ≠ [] → r <+: q → fate (base ++ r) = .keep

theorem Kept.head {fate : Path → Settled} {base q : Path} {step : Step} (h : Kept fate base (step :: q)) :
    fate (base ++ [step]) = .keep :=
  h [step] (by simp) ⟨q, rfl⟩

theorem Kept.tail {fate : Path → Settled} {base q : Path} {step : Step} (h : Kept fate base (step :: q)) :
    Kept fate (base ++ [step]) q := by
  intro r _ hr
  have hkept := h (step :: r) (by simp) (List.cons_prefix_cons.mpr ⟨rfl, hr⟩)
  rwa [List.append_assoc]

/-- The node of a call is where its path leads now. -/
def Found (fate : Path → Settled) (base : Path) (n : Node) (met : Call) (later : List Call) : Prop :=
  ∃ q, met.path = base ++ q ∧
    (Kept fate base q → ∃ m, n.at? (movedTo fate base q) = some m ∧ Remains met later m)

/-- The node of a call is where its path leads now, through one of the fields. -/
def FoundBelow (fate : Path → Settled) (base : Path) (names : List String) (n : Node) (met : Call)
    (later : List Call) : Prop :=
  ∃ step q, step.field ∈ names ∧ met.path = base ++ step :: q ∧
    (Kept fate base (step :: q) →
      ∃ m, n.at? (movedTo fate base (step :: q)) = some m ∧ Remains met later m)

/-- The node of a call is below a slot. -/
def FoundInSlots (fate : Path → Settled) (base : Path) (name : String) (i : Nat)
    (left : List (Option Node)) (met : Call) (later : List Call) : Prop :=
  ∃ j q c, met.path = base ++ ⟨name, some (i + j)⟩ :: q ∧ left[j]? = some (some c) ∧
    (Kept fate (base ++ [⟨name, some (i + j)⟩]) q →
      ∃ m, c.at? (movedTo fate (base ++ [⟨name, some (i + j)⟩]) q) = some m ∧ Remains met later m)

variable {fate : Path → Settled} {base : Path} {name : String} {names : List String} {n : Node}
  {met : Call} {later : List Call}

theorem FoundBelow.append (h : FoundBelow fate base names n met later) (more : List Call) :
    FoundBelow fate base names n met (later ++ more) := by
  obtain ⟨step, q, hstep, hpath, hfound⟩ := h
  refine ⟨step, q, hstep, hpath, fun hkept => ?_⟩
  obtain ⟨m, hm, hremains⟩ := hfound hkept
  exact ⟨m, hm, hremains.append more⟩

theorem FoundInSlots.append {i : Nat} {left : List (Option Node)}
    (h : FoundInSlots fate base name i left met later) (more : List Call) :
    FoundInSlots fate base name i left met (later ++ more) := by
  obtain ⟨j, q, c, hpath, hslot, hfound⟩ := h
  refine ⟨j, q, c, hpath, hslot, fun hkept => ?_⟩
  obtain ⟨m, hm, hremains⟩ := hfound hkept
  exact ⟨m, hm, hremains.append more⟩

theorem FoundBelow.found (h : FoundBelow fate base names n met later) : Found fate base n met later := by
  obtain ⟨step, q, _, hpath, hfound⟩ := h
  exact ⟨step :: q, hpath, hfound⟩

/-- Only the fields that the calls went through are looked at. -/
theorem FoundBelow.congr {names' : List String} {n' : Node} (h : FoundBelow fate base names n met later)
    (hnames : names ⊆ names') (hget : ∀ name ∈ names, n'.get? name = n.get? name) :
    FoundBelow fate base names' n' met later := by
  obtain ⟨step, q, hstep, hpath, hfound⟩ := h
  refine ⟨step, q, hnames hstep, hpath, fun hkept => ?_⟩
  obtain ⟨m, hm, hremains⟩ := hfound hkept
  refine ⟨m, ?_, hremains⟩
  rw [← hm, movedTo, at?_cons, at?_cons]
  congr 1
  exact step?_congr (hget step.field hstep)

/-- What is found below a child is found through its field. -/
theorem Found.foundBelow {c : Node} (h : Found fate (base ++ [⟨name, none⟩]) c met later)
    (hstep : n.step? ⟨name, none⟩ = some c) : FoundBelow fate base [name] n met later := by
  obtain ⟨q, hpath, hfound⟩ := h
  refine ⟨⟨name, none⟩, q, List.mem_singleton_self _, by rw [hpath, List.append_assoc]; rfl, ?_⟩
  intro hkept
  obtain ⟨m, hm, hremains⟩ := hfound hkept.tail
  refine ⟨m, ?_, hremains⟩
  rw [movedTo, at?_cons]
  exact (congrArg (Option.bind · _) hstep).trans hm

/-- A slot of a list is found where the fates of the slots before it have moved it. -/
theorem FoundInSlots.foundBelow {left new : List (Option Node)}
    (h : FoundInSlots fate base name 0 left met later) (hget : n.get? name = some (.list new))
    (hnew : ∀ j c, left[j]? = some (some c) → fate (base ++ [⟨name, some j⟩]) = .keep →
      new[slotsBefore (fun k => (fate (base ++ [⟨name, some k⟩])).width) j]? = some (some c)) :
    FoundBelow fate base [name] n met later := by
  obtain ⟨j, q, c, hpath, hslot, hfound⟩ := h
  rw [Nat.zero_add] at hpath hfound
  refine ⟨⟨name, some j⟩, q, List.mem_singleton_self _, hpath, fun hkept => ?_⟩
  obtain ⟨m, hm, hremains⟩ := hfound hkept.tail
  refine ⟨m, ?_, hremains⟩
  have hstep : n.step? ⟨name, some _⟩ = some c :=
    step?_slot_eq_some_iff.mpr ⟨new, hget, hnew j c hslot hkept.head⟩
  rw [movedTo, at?_cons]
  exact (congrArg (Option.bind · _) hstep).trans hm

/-! ## Visits that are complete -/

/-- The fates below a position are those that the calls decide. -/
def Matches (fate : Path → Settled) (base : Path) (calls : List Call) : Prop :=
  ∀ step q, fate (base ++ step :: q) = decided calls (base ++ step :: q)

/-- What the calls of a visit tell. -/
structure Faithful (below : Path → Node → List Call → Settled → Node → Prop) : Prop where
  isPrefix : ∀ {base n calls settled r}, below base n calls settled r → ∀ c ∈ calls, base <+: c.path
  ne_nil : ∀ {base n calls settled r}, below base n calls settled r → calls ≠ []
  decided_eq : ∀ {base n calls settled r}, below base n calls settled r → decided calls base = settled
  tells : ∀ {base n calls settled r}, below base n calls settled r →
    ∀ fate, Matches fate base calls → Tells calls (Found fate base r)

/-- All calls are below the base, through one of the fields. -/
def Through (base : Path) (names : List String) (calls : List Call) : Prop :=
  ∀ c ∈ calls, ∃ step q, step.field ∈ names ∧ c.path = base ++ step :: q

/-- All calls are below a slot of the list, from one index on and before another one. -/
def ThroughSlots (base : Path) (name : String) (i k : Nat) (calls : List Call) : Prop :=
  ∀ c ∈ calls, ∃ j q, i ≤ j ∧ j < k ∧ c.path = base ++ ⟨name, some j⟩ :: q

theorem Through.nil : Through base names [] := by
  intro c hc
  cases hc

theorem Through.append (hfirst : Through base names first) (hsecond : Through base names second) :
    Through base names (first ++ second) :=
  List.forall_mem_append.mpr ⟨hfirst, hsecond⟩

theorem Through.mono {names' : List String} (h : Through base names calls) (hnames : names ⊆ names') :
    Through base names' calls := by
  intro c hc
  obtain ⟨step, q, hstep, hpath⟩ := h c hc
  exact ⟨step, q, hnames hstep, hpath⟩

theorem Through.ne_of_field (h : Through base names calls) {step : Step} (hstep : step.field ∉ names)
    (q : Path) : ∀ c ∈ calls, c.path ≠ base ++ step :: q := by
  intro c hc heq
  obtain ⟨step', q', hfield, hpath⟩ := h c hc
  rw [hpath, List.append_cancel_left_eq, List.cons.injEq] at heq
  exact hstep (heq.1 ▸ hfield)

theorem Through.ne_base (h : Through base names calls) : ∀ c ∈ calls, c.path ≠ base := by
  intro c hc heq
  obtain ⟨step, q, _, hpath⟩ := h c hc
  rw [hpath] at heq
  simp at heq

theorem ThroughSlots.through {i k : Nat} (h : ThroughSlots base name i k calls) :
    Through base [name] calls := by
  intro c hc
  obtain ⟨j, q, _, _, hpath⟩ := h c hc
  exact ⟨⟨name, some j⟩, q, List.mem_singleton_self _, hpath⟩

theorem ThroughSlots.ne_of_lt {i k : Nat} (h : ThroughSlots base name i k calls) {j : Nat}
    (hj : j < i ∨ k ≤ j) (q : Path) : ∀ c ∈ calls, c.path ≠ base ++ ⟨name, some j⟩ :: q := by
  intro c hc heq
  obtain ⟨j', q', hle, hlt, hpath⟩ := h c hc
  rw [hpath, List.append_cancel_left_eq, List.cons.injEq, Step.mk.injEq, Option.some.injEq] at heq
  omega

section

variable {below : Path → Node → List Call → Settled → Node → Prop} (hbelow : Faithful below)
include hbelow

/-- The calls of a visit one step down. -/
theorem Faithful.through {step : Step} {c r : Node} {settled : Settled}
    (h : below (base ++ [step]) c calls settled r) :
    ∀ call ∈ calls, ∃ q, call.path = base ++ step :: q := by
  intro call hcall
  obtain ⟨q, hq⟩ := hbelow.isPrefix h call hcall
  exact ⟨q, by rw [← hq, List.append_assoc]; rfl⟩

/-- The calls of a visit of one slot are not those of another. -/
theorem Faithful.ne_of_index {i j : Nat} {c r : Node} {settled : Settled}
    (h : below (base ++ [⟨name, some i⟩]) c calls settled r) (hij : i ≠ j) (q : Path) :
    ∀ call ∈ calls, call.path ≠ base ++ ⟨name, some j⟩ :: q := by
  intro call hcall heq
  obtain ⟨q', hq'⟩ := hbelow.through h call hcall
  rw [hq', List.append_cancel_left_eq, List.cons.injEq, Step.mk.injEq, Option.some.injEq] at heq
  exact hij heq.1.2

/-! ### Lists -/

theorem throughSlots {i : Nat} {slots left : List (Option Node)} {fates : List Settled}
    (h : SlotsVisited below base name i slots calls fates left) :
    ThroughSlots base name i (i + slots.length) calls := by
  induction h with
  | nil => intro c hc; cases hc
  | hole _ ih =>
      intro c hc
      obtain ⟨j, q, hle, hlt, hpath⟩ := ih c hc
      rw [List.length_cons]
      exact ⟨j, q, by omega, by omega, hpath⟩
  | node hfirst _ ih =>
      intro c hc
      rw [List.length_cons]
      rcases List.mem_append.mp hc with hc | hc
      · obtain ⟨q, hq⟩ := hbelow.through hfirst c hc
        exact ⟨_, q, Nat.le_refl _, by omega, hq⟩
      · obtain ⟨j, q, hle, hlt, hpath⟩ := ih c hc
        exact ⟨j, q, by omega, by omega, hpath⟩

/-- The fates of the slots are those that the calls decide. -/
theorem decided_slots {i : Nat} {slots left : List (Option Node)} {fates : List Settled}
    (h : SlotsVisited below base name i slots calls fates left) {j : Nat} {settled : Settled}
    (hj : fates[j]? = some settled) : decided calls (base ++ [⟨name, some (i + j)⟩]) = settled := by
  induction h generalizing j with
  | nil => cases hj
  | @hole i rest left calls fates hrest ih =>
      cases j with
      | zero =>
          cases hj
          exact decided_of_forall_ne ((throughSlots hbelow hrest).ne_of_lt (.inl (by omega)) [])
      | succ j =>
          rw [show i + (j + 1) = i + 1 + j by omega]
          exact ih hj
  | @node i c c' rest left calls calls' fate fates hfirst hrest ih =>
      cases j with
      | zero =>
          cases hj
          rw [decided_append_left ((throughSlots hbelow hrest).ne_of_lt (.inl (by omega)) [])]
          exact hbelow.decided_eq hfirst
      | succ j =>
          rw [show i + (j + 1) = i + 1 + j by omega,
            decided_append_right (hbelow.ne_of_index hfirst (by omega) [])]
          exact ih hj

/-- What the calls of a pass over slots tell, whether the list is rebuilt or not. -/
theorem tells_slots {i : Nat} {slots left : List (Option Node)} {fates : List Settled}
    (h : SlotsVisited below base name i slots calls fates left)
    (hfate : ∀ j step q, i ≤ j → j < i + slots.length →
      fate (base ++ ⟨name, some j⟩ :: step :: q) = decided calls (base ++ ⟨name, some j⟩ :: step :: q)) :
    Tells calls (FoundInSlots fate base name i left) := by
  -- The slots behind the first one have indices that are one less for them.
  have hshift : ∀ {i : Nat} {slot : Option Node} {left : List (Option Node)} {met : Call}
      {later : List Call}, FoundInSlots fate base name (i + 1) left met later →
      FoundInSlots fate base name i (slot :: left) met later := by
    rintro i slot left met later ⟨j, q, c, hpath, hslot, hfound⟩
    rw [show i + 1 + j = i + (j + 1) by omega] at hpath hfound
    exact ⟨j + 1, q, c, hpath, hslot, hfound⟩
  induction h with
  | nil => exact .nil
  | @hole i rest left calls fates hrest ih =>
      refine (ih fun j step q hle hlt => ?_).imp fun _ _ => hshift
      rw [List.length_cons] at hfate
      exact hfate j step q (by omega) (by omega)
  | @node i c c' rest left calls calls' settled fates hfirst hrest ih =>
      rw [List.length_cons] at hfate
      have hbehind := throughSlots hbelow hrest
      refine Tells.append ?_ ?_ fun _ _ more h => h.append more
      · have hmatches : Matches fate (base ++ [⟨name, some i⟩]) calls := by
          intro step q
          rw [List.append_assoc]
          show _ = decided calls (base ++ ⟨name, some i⟩ :: step :: q)
          rw [← decided_append_left (hbehind.ne_of_lt (.inl (by omega)) _)]
          exact hfate i step q (by omega) (by omega)
        refine (hbelow.tells hfirst fate hmatches).imp ?_
        rintro met later ⟨q, hpath, hfound⟩
        exact ⟨0, q, c', by rw [hpath, List.append_assoc]; rfl, rfl, hfound⟩
      · refine (ih fun j step q hle hlt => ?_).imp fun _ _ => hshift
        rw [hfate j step q (by omega) (by omega)]
        exact decided_append_right (hbelow.ne_of_index hfirst (by omega) _)

/-! ### Fields -/

theorem through_field {r : Node} (h : FieldVisited below base name n calls r) : Through base [name] calls := by
  have hstep : ∀ {step : Step} {c c' : Node} {settled : Settled}, step.field = name →
      below (base ++ [step]) c calls settled c' → Through base [name] calls := by
    intro step c c' settled hstep hchild call hcall
    obtain ⟨q, hq⟩ := hbelow.through hchild call hcall
    exact ⟨step, q, by simp [hstep], hq⟩
  cases h with
  | skipped => exact .nil
  | kept _ hchild => exact hstep rfl hchild
  | removed _ hchild => exact hstep rfl hchild
  | list _ hslots => exact (throughSlots hbelow hslots).through

theorem tells_field {r : Node} (h : FieldVisited below base name n calls r)
    (hfate : ∀ step q, step.field = name →
      fate (base ++ step :: q) = decided calls (base ++ step :: q)) :
    Tells calls (FoundBelow fate base [name] r) := by
  have hmatches : Matches fate (base ++ [⟨name, none⟩]) calls := by
    intro step q
    rw [List.append_assoc]
    exact hfate ⟨name, none⟩ (step :: q) rfl
  cases h with
  | skipped => exact .nil
  | @kept c c' calls hget hchild =>
      have hstep : (n.set name (.child c')).step? ⟨name, none⟩ = some c' :=
        child?_eq_some_iff.mpr (get?_set_self ..)
      exact (hbelow.tells hchild fate hmatches).imp fun _ _ hfound => hfound.foundBelow hstep
  | @removed c c' calls hget hchild =>
      -- The field is gone, so there is nothing to find.
      refine (hbelow.tells hchild fate hmatches).imp ?_
      rintro met later ⟨q, hpath, _⟩
      refine ⟨⟨name, none⟩, q, List.mem_singleton_self _, by rw [hpath, List.append_assoc]; rfl, ?_⟩
      intro hkept
      have hremoved : fate (base ++ [⟨name, none⟩]) = .remove :=
        (hfate ⟨name, none⟩ [] rfl).trans (hbelow.decided_eq hchild)
      rw [hkept.head] at hremoved
      cases hremoved
  | @list slots left calls fates hget hslots =>
      have hfates : ∀ j settled, fates[j]? = some settled →
          fate (base ++ [⟨name, some j⟩]) = settled := by
        intro j settled hj
        rw [hfate ⟨name, some j⟩ [] rfl]
        simpa using decided_slots hbelow hslots hj
      refine (tells_slots hbelow hslots fun j step q _ _ => hfate ⟨name, some j⟩ (step :: q) rfl).imp ?_
      intro met later hfound
      apply hfound.foundBelow (get?_set_self ..)
      intro j c hj hkeep
      have hlength := hslots.length_eq.2
      have hlt : j < fates.length := by
        rw [hlength]
        exact (List.getElem?_eq_some_iff.mp hj).1
      have hj' : fates[j]? = some .keep := by
        rw [List.getElem?_eq_getElem hlt, ← hfates j _ (List.getElem?_eq_getElem hlt), hkeep]
      rw [← hj]
      exact getElem?_compactSlots hlength.symm (fun k settled hk => by rw [hfates k settled hk]) hj'

/-- A pass that makes no calls changes nothing. -/
theorem compactSlots_of_nil {i : Nat} {slots left : List (Option Node)} {fates : List Settled}
    (h : SlotsVisited below base name i slots calls fates left) (hcalls : calls = []) :
    compactSlots left fates = slots := by
  induction h with
  | nil => rfl
  | hole _ ih => exact congrArg (none :: ·) (ih hcalls)
  | node hfirst _ _ => exact absurd (List.append_eq_nil_iff.mp hcalls).1 (hbelow.ne_nil hfirst)

theorem eq_of_field_nil {r : Node} (h : FieldVisited below base name n calls r) (hcalls : calls = []) :
    r = n := by
  cases h with
  | skipped => rfl
  | kept _ hchild => exact absurd hcalls (hbelow.ne_nil hchild)
  | removed _ hchild => exact absurd hcalls (hbelow.ne_nil hchild)
  | list hget hslots => rw [compactSlots_of_nil hbelow hslots hcalls, set_eq_self hget]

theorem through_fields {r : Node} (h : FieldsVisited below base names n calls r) :
    Through base names calls := by
  induction h with
  | nil => exact .nil
  | cons hfirst _ ih =>
      apply Through.append
      · exact (through_field hbelow hfirst).mono (by simp)
      · exact ih.mono (List.subset_cons_self _ _)

theorem eq_of_fields_nil {r : Node} (h : FieldsVisited below base names n calls r) (hcalls : calls = []) :
    r = n := by
  induction h with
  | nil => rfl
  | cons hfirst _ ih =>
      obtain ⟨hfirst', hrest⟩ := List.append_eq_nil_iff.mp hcalls
      rw [ih hrest, eq_of_field_nil hbelow hfirst hfirst']

theorem tells_fields {r : Node} (h : FieldsVisited below base names n calls r) (hnodup : names.Nodup)
    (hfate : ∀ step q, step.field ∈ names →
      fate (base ++ step :: q) = decided calls (base ++ step :: q)) :
    Tells calls (FoundBelow fate base names r) := by
  induction h with
  | nil => exact .nil
  | @cons name names n m r calls calls' hfirst hrest ih =>
      obtain ⟨hfresh, hnodup⟩ := List.nodup_cons.mp hnodup
      refine Tells.append ?_ ?_ fun _ _ more h => h.append more
      · have hfirstFate : ∀ step q, step.field = name →
            fate (base ++ step :: q) = decided calls (base ++ step :: q) := by
          intro step q hstep
          rw [hfate step q (by simp [hstep])]
          exact decided_append_left ((through_fields hbelow hrest).ne_of_field (by rwa [hstep]) q)
        refine (tells_field hbelow hfirst hfirstFate).imp fun met later h => ?_
        apply h.congr (by simp)
        intro other hother
        rw [List.mem_singleton.mp hother]
        exact hrest.frame.2 name hfresh
      · refine (ih hnodup fun step q hstep => ?_).imp fun met later h => ?_
        · rw [hfate step q (List.mem_cons_of_mem _ hstep)]
          refine decided_append_right ((through_field hbelow hfirst).ne_of_field ?_ q)
          rw [List.mem_singleton]
          exact fun heq => hfresh (heq ▸ hstep)
        · exact h.congr (List.subset_cons_self _ _) fun _ _ => rfl

/-! ### Nodes -/

/-- Below a node that was entered. -/
theorem tells_inside {m r : Node} {outcome : Outcome}
    (h : InsideVisited below base m outcome calls r) (hmatches : Matches fate base calls) :
    Tells calls (FoundBelow fate base m.kind.fields r) := by
  cases h with
  | replaced => exact .nil
  | kept hfields =>
      exact tells_fields hbelow hfields (nodup_fields _) fun step q _ => hmatches step q

theorem through_inside {m r : Node} {outcome : Outcome}
    (h : InsideVisited below base m outcome calls r) : Through base m.kind.fields calls := by
  cases h with
  | replaced => exact .nil
  | kept hfields => exact through_fields hbelow hfields

/-- A node that was entered remains, whatever happens below it. -/
theorem remains_inside {m r : Node} {outcome : Outcome} {entered : Call} (hpath : entered.path = base)
    (hleft : entered.left = m) (h : InsideVisited below base m outcome calls r) :
    Remains entered calls r := by
  subst hleft
  cases h with
  | replaced => exact remains_left entered []
  | kept hfields =>
      refine ⟨hfields.frame.1, hfields.frame.2, fun hall => ?_⟩
      cases calls with
      | nil => exact eq_of_fields_nil hbelow hfields rfl
      | cons c calls =>
          have hthrough := through_fields hbelow hfields
          obtain ⟨step, q, _, hc⟩ := hthrough c List.mem_cons_self
          have heq := hall c List.mem_cons_self (by rw [hpath, hc]; exact List.prefix_append ..)
          exact absurd (heq.trans hpath) (hthrough.ne_base c List.mem_cons_self)

end

/-- After the calls below a node comes at most one more, at the node itself. -/
def Closes (base : Path) (r : Node) (leaving : List Call) (r' : Node) : Prop :=
  leaving = [] ∧ r' = r ∨
    ∃ last : Call, leaving = [last] ∧ last.path = base ∧ last.given = r ∧ last.left = r'

theorem Closes.path_eq {r r' : Node} {leaving : List Call} (h : Closes base r leaving r') :
    ∀ c ∈ leaving, c.path = base := by
  intro c hc
  rcases h with ⟨rfl, _⟩ | ⟨last, rfl, hlast, _, _⟩
  · cases hc
  · rw [List.mem_singleton.mp hc, hlast]

/-- A call on leaving that edits nothing leaves the node as it was. -/
theorem Closes.eq {r r' : Node} {leaving : List Call} (h : Closes base r leaving r')
    (hall : ∀ c ∈ leaving, c.left = c.given) : r' = r := by
  rcases h with ⟨_, heq⟩ | ⟨last, rfl, _, hgiven, hleft⟩
  · exact heq
  · rw [← hleft, ← hgiven]
    exact hall last (List.mem_singleton_self _)

theorem closes_leaving {r r' : Node} {settled : Settled} (h : Leaving base r calls settled r') :
    Closes base r calls r' := by
  cases h with
  | unhooked => exact .inl ⟨rfl, rfl⟩
  | hooked => exact .inr ⟨_, rfl, rfl, rfl, rfl⟩

theorem eq_of_singleton_eq {call : Call} {earlier : List Call} (h : [call] = earlier ++ met :: later) :
    met = call ∧ later = [] := by
  cases earlier with
  | nil =>
      rw [List.nil_append, List.cons.injEq] at h
      exact ⟨h.1.symm, h.2.symm⟩
  | cons c earlier => simp at h

theorem tells_singleton {call : Call} (hpath : call.path = base) :
    Tells [call] (Found fate base call.left) := by
  intro earlier met later heq _
  obtain ⟨rfl, rfl⟩ := eq_of_singleton_eq heq
  exact ⟨[], by simpa using hpath, fun _ => ⟨met.left, rfl, remains_left met []⟩⟩

/-- What the calls at a node and below it tell. -/
theorem tells_node {entered : Call} {inner leaving : List Call} {r r' : Node}
    (hpath : entered.path = base) (hremains : Remains entered inner r)
    (hinner : Tells inner (FoundBelow fate base names r)) (hthrough : Through base names inner)
    (hcloses : Closes base r leaving r') :
    Tells (entered :: (inner ++ leaving)) (Found fate base r') := by
  intro earlier met later heq hlater
  rw [← List.singleton_append] at heq
  rcases append_eq_middle heq with ⟨later', hfirst, rfl⟩ | ⟨earlier', hsecond⟩
  · -- the call on entering
    obtain ⟨rfl, rfl⟩ := eq_of_singleton_eq hfirst
    have hsame : r' = r := by
      apply hcloses.eq
      intro c hc
      have hsamePath : c.path = met.path := (hcloses.path_eq c hc).trans hpath.symm
      exact hlater c (by simp [hc]) (hsamePath ▸ List.prefix_rfl)
    refine ⟨[], by simpa using hpath, fun _ => ⟨r', rfl, ?_⟩⟩
    rw [hsame]
    exact hremains.append leaving
  · rcases append_eq_middle hsecond with ⟨later', hfirst, rfl⟩ | ⟨earlier'', hlast⟩
    · -- a call below
      have hfound := hinner _ met later' hfirst fun c hc => hlater c (List.mem_append_left _ hc)
      obtain ⟨step, q, _, hmet⟩ := hthrough met (by rw [hfirst]; simp)
      have hsame : r' = r := by
        apply hcloses.eq
        intro c hc
        apply hlater c (List.mem_append_right _ hc)
        rw [hcloses.path_eq c hc, hmet]
        exact List.prefix_append ..
      rw [hsame]
      exact (hfound.append leaving).found
    · -- the call on leaving
      rcases hcloses with ⟨rfl, _⟩ | ⟨last, rfl, hlastPath, _, hleft⟩
      · simp at hlast
      · obtain ⟨rfl, rfl⟩ := eq_of_singleton_eq hlast
        refine ⟨[], by simpa using hlastPath, fun _ => ⟨r', rfl, ?_⟩⟩
        rw [← hleft]
        exact remains_left met []

/-- The calls at a node itself do not count for what is below it. -/
theorem Matches.inner {entered : Call} {inner leaving : List Call} (hpath : entered.path = base)
    (hleaving : ∀ c ∈ leaving, c.path = base)
    (h : Matches fate base (entered :: (inner ++ leaving))) : Matches fate base inner := by
  intro step q
  rw [h step q, decided_cons (by rw [hpath]; simp), decided_append_left]
  intro c hc
  rw [hleaving c hc]
  simp

theorem faithful_node {below : Path → Node → List Call → Settled → Node → Prop}
    (hbelow : Faithful below) : Faithful fun base => NodeVisited below base where
  isPrefix := by
    intro base n calls settled r h
    cases h with
    | dropped =>
        intro c hc
        obtain rfl := List.mem_singleton.mp hc
        exact List.prefix_rfl
    | settled hinside hleaving =>
        intro c hc
        rcases List.mem_cons.mp hc with rfl | hc
        · exact List.prefix_rfl
        rcases List.mem_append.mp hc with hc | hc
        · obtain ⟨step, q, _, hpath⟩ := through_inside hbelow hinside c hc
          rw [hpath]
          exact List.prefix_append ..
        · exact (closes_leaving hleaving).path_eq c hc ▸ List.prefix_rfl
  ne_nil := by
    intro base n calls settled r h
    cases h <;> simp
  decided_eq := by
    intro base n calls settled r h
    cases h with
    | dropped => simp [decided, Call.fate]
    | @settled seen m r r' outcome calls calls' fate hinside hleaving =>
        cases hleaving with
        | unhooked =>
            have hne := (through_inside hbelow hinside).ne_base
            rw [List.append_nil, ← List.singleton_append, decided_append_left hne]
            cases hinside <;> simp [decided, Call.fate, Outcome.settle]
        | hooked =>
            rw [← List.cons_append]
            exact decided_concat
  tells := by
    intro base n calls settled r h fate hmatches
    cases h with
    | dropped => exact tells_singleton rfl
    | settled hinside hleaving =>
        have hcloses := closes_leaving hleaving
        have hinner := hmatches.inner (by rfl) hcloses.path_eq
        exact tells_node rfl (remains_inside hbelow rfl rfl hinside) (tells_inside hbelow hinside hinner)
          (through_inside hbelow hinside) hcloses

theorem faithful_visitedWithin (levels : Nat) : Faithful (VisitedWithin levels) := by
  induction levels with
  | zero => exact ⟨fun h => h.elim, fun h => h.elim, fun h => h.elim, fun h => h.elim⟩
  | succ levels ih => exact faithful_node ih

end History

end Minifier
