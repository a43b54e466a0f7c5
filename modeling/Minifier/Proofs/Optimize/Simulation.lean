import Minifier.Proofs.Optimize.Turn

/-!
# The walk of the optimizer is the recursion

Where everything stands as expected, all that the optimizer sees of the tree around a node is the `Spot`. So what
it makes of the node is what the recursion makes of it (`eq_reduce`), and its walk over a program comes to its
end with the reduced program (`optimize_eq_reduce`).
-/

namespace Minifier.Optimize

open Node

variable {place inner : Place} {around : Surroundings} {n copy r : Node} {s : Spot} {name : String}
  {names : List String} {prologue : Bool} {done rest pieces : List (Option Node)} {old new : Field Node}
  {x : Settled × Node}

/-- What is made of the node is what the recursion makes of it, if all stands as expected. -/
def Reduces (around : Surroundings) (n : Node) (x : Settled × Node) : Prop :=
  ∀ ⦃place : Place⦄, Fits place around → seated place n = true → x = reduce (spotOf around) n

/-- A node that stands in no list stays in its slot. -/
theorem reduce_unlisted (hlisted : s.listed = false) (hprologue : s.prologue = false) (n : Node) :
    (reduce s n).1 = .keep := by
  rw [reduce_eq, hprologue, hlisted]
  split
  · rfl
  · show (settleBy constant? false _).1 = .keep
    exact settleBy_unlisted _

/-! ## What is below a node -/

theorem fits_slot (h : Fits place around) (hn : seated place n = true) (hname : name ∈ n.kind.fields)
    (hseat : place.seat n.kind name = some inner)
    (hdone : ∀ m, some m ∈ done → seated inner m = true)
    (hrest : ∀ m, some m ∈ rest → seated inner m = true) :
    Fits inner (slotFrame n name done rest :: around) := by
  refine ⟨place, seated_set_field hn hname hseat (standsSlots_iff.mpr ?_), hname, hseat, h⟩
  intro m hm
  rcases List.mem_append.mp hm with hm | hm
  · exact hdone m hm
  · rcases List.mem_cons.mp hm with hm | hm
    · cases hm
    · exact hrest m hm

/-- Each child of a list sees the slots before it as they were left, and those are seated as well as they
were before. -/
theorem SlotsLeft.eq_reduceSlots (hleft : SlotsLeft Reduces around n name prologue done rest pieces)
    (h : Fits place around) (hn : seated place n = true) (hname : name ∈ n.kind.fields)
    (hseat : place.seat n.kind name = some inner)
    (hdone : ∀ m, some m ∈ done → seated inner m = true)
    (hrest : ∀ m, some m ∈ rest → seated inner m = true) :
    pieces = reduceSlots reduce (isBodyField n.kind name) prologue rest := by
  induction hleft with
  | nil => rfl
  | @hole prologue done rest pieces _ ih =>
      have hdone' : ∀ m, some m ∈ done ++ [none] → seated inner m = true := by
        intro m hm
        rcases List.mem_append.mp hm with hm | hm
        · exact hdone m hm
        · cases List.mem_singleton.mp hm
      rw [reduceSlots, ih hdone' fun m hm => hrest m (List.mem_cons_of_mem _ hm)]
  | @node prologue done rest pieces c x hspot hx _ ih =>
      have hc := hrest c (List.mem_cons_self ..)
      have htail : ∀ m, some m ∈ rest → seated inner m = true :=
        fun m hm => hrest m (List.mem_cons_of_mem _ hm)
      have hreduced := hx (fits_slot h hn hname hseat hdone htail) hc
      rw [hspot] at hreduced
      have hdone' : ∀ m, some m ∈ done ++ [some x.2] → seated inner m = true := by
        intro m hm
        rcases List.mem_append.mp hm with hm | hm
        · exact hdone m hm
        · cases List.mem_singleton.mp hm
          rw [hreduced]
          exact (fateSeated_reduce hc _).node
      rw [reduceSlots, ih hdone' htail, hreduced]

theorem ContentLeft.eq_reduceContent (hleft : ContentLeft Reduces around n name old new)
    (h : Fits place around) (hn : seated place n = true) (hname : name ∈ n.kind.fields)
    (hget : n.get? name = some old) :
    new = reduceContent reduce (spotOf around) n.kind name old := by
  obtain ⟨inner, hseat⟩ := exists_seat place hname
  cases hleft with
  | value json => rfl
  | child hm =>
      have hfits : Fits inner (fieldFrame n name :: around) :=
        ⟨place, seated_set_field hn hname hseat rfl, hname, hseat, h⟩
      have hreduced := hm hfits (standsField_of_get? hn hget hseat)
      rw [reduceContent, show (⟨false, false, isBodyField n.kind name⟩ : Spot)
        = spotOf (fieldFrame n name :: around) from rfl, ← hreduced]
  | list hslots =>
      rw [reduceContent, hslots.eq_reduceSlots h hn hname hseat (by simp)
        fun m hm => stands_slot hn hget hseat hm]

theorem seated_reduceField {copy : Node} (hn : seated place n = true) (hcopy : seated place copy = true)
    (hkind : copy.kind = n.kind) (hname : name ∈ n.kind.fields) :
    seated place (reduceField reduce s n copy name) = true := by
  obtain ⟨inner, hseat⟩ := exists_seat place hname
  unfold reduceField
  cases hget : n.get? name with
  | none => exact hcopy
  | some content =>
      have hcontent := standsField_of_get? hn hget hseat
      rw [← hkind] at hname hseat
      apply seated_set_field hcopy hname hseat
      exact seatedField_reduceContent hcontent (fun t c _ hc => fateSeated_reduce hc t) n.kind

/-- The fields that are still to be swept are as they were in the node. -/
theorem FieldsLeft.eq_foldl (hleft : FieldsLeft Reduces around names copy r) (h : Fits place around)
    (hn : seated place n = true) (hcopy : seated place copy = true) (hkind : copy.kind = n.kind)
    (hnodup : names.Nodup) (hnames : names ⊆ n.kind.fields)
    (hget : ∀ name ∈ names, copy.get? name = n.get? name) :
    r = names.foldl (reduceField reduce (spotOf around) n) copy := by
  induction hleft with
  | nil => rfl
  | @absent name names copy r hold _ ih =>
      have hsame : reduceField reduce (spotOf around) n copy name = copy := by
        unfold reduceField
        rw [← hget name (List.mem_cons_self ..), hold]
      rw [List.foldl_cons, hsame]
      apply ih hcopy hkind (List.nodup_cons.mp hnodup).2
      · exact fun other hother => hnames (List.mem_cons_of_mem _ hother)
      · exact fun other hother => hget other (List.mem_cons_of_mem _ hother)
  | @field name names old new copy r hold hnew _ ih =>
      obtain ⟨hfresh, hnodup⟩ := List.nodup_cons.mp hnodup
      have hname := hnames (List.mem_cons_self ..)
      have hwrite : copy.set name new = reduceField reduce (spotOf around) n copy name := by
        have hnew := hnew.eq_reduceContent h hcopy (hkind ▸ hname) hold
        unfold reduceField
        rw [← hget name (List.mem_cons_self ..), hold, hnew, hkind]
      rw [List.foldl_cons, ← hwrite]
      apply ih _ hkind hnodup
      · exact fun other hother => hnames (List.mem_cons_of_mem _ hother)
      · intro other hother
        have hne : other ≠ name := fun heq => hfresh (heq ▸ hother)
        rw [get?_set_of_ne hne]
        exact hget other (List.mem_cons_of_mem _ hother)
      · rw [hwrite]
        exact seated_reduceField hn hcopy hkind hname

/-! ## The whole walk -/

/-- What the optimizer makes of a node is what the recursion makes of it. -/
theorem Makes.eq_reduce (hmakes : Makes around n x) : Reduces around n x := by
  refine Makes.induction (P := Reduces) ?_ hmakes
  intro around n x ho hturn place h hn
  have hvalue : valueIn? around = constant? := funext (evaluate?_of_fits ho h)
  rw [reduce_eq]
  cases hturn with
  | folded hfolded =>
      rw [hvalue] at hfolded
      rw [show folded? n = _ from hfolded]
  | dropped hprologue hdirective =>
      have hkind : n.kind = .expressionStatement := by
        by_contra hne
        rw [directive?_of_ne hne] at hdirective
        cases hdirective
      rw [folded?_of_not_isOperator (by rw [hkind]; rfl), hprologue, hdirective]
      rfl
  | swept hfolded hkept hfields =>
      rw [hvalue] at hfolded ⊢
      have hshort := seated_shorten hn
      rw [← kind_shorten n] at hfields
      have hreduces := hfields.mono (Q := Reduces) (nodup_fields _) fun _ _ _ hy => hy.2
      have hr := hreduces.eq_foldl h hshort hshort rfl (nodup_fields _) (fun _ hx => hx) fun _ _ => rfl
      have hpass : ((spotOf around).prologue && directive? n == some "use strict") = false := by
        simpa using hkept
      rw [show folded? n = none from hfolded, hpass, hr]
      rfl

/-- **The walk over a program ends with the reduced program.** -/
theorem optimize_eq_reduce (hkind : n.kind = .program) (hn : seated .plain n = true) :
    optimize n = .ok (reduce ⟨false, false, false⟩ n).2 := by
  obtain ⟨x, hx, hoptimize⟩ := exists_optimize hkind
  have hfits : Fits .plain [] := rfl
  have hreduce := hx.eq_reduce hfits hn
  rw [hoptimize, hreduce]
  rfl

end Minifier.Optimize
