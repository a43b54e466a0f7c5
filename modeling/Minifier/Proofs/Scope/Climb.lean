import Minifier.Expression
import Minifier.Proofs.Scope.Grammar

/-!
# Patterns read upward and downward

Which identifiers a pattern binds is read in two ways. `Occurrence.bindings` goes down from the pattern, by the
kinds of the nodes that it meets. `Scope.patternDepth` goes up from an identifier, by kinds and fields, and looks one
node ahead at a property. Here the two readings are compared: `climbing` lists the identifiers below a node from
which the climb comes up to that node, in the order of a traversal.

* One step down, a climb is one step longer, and that step has to stay inside a pattern (`climbs_iff`). So `climbing`
  has the equations of a recursion on the tree (`climbing_eq`).
* These are the equations of `bindings`, except at a property that stands in an object pattern
  (`climbing_eq_parts`, `climbing_property`), and so the readings agree (`bindings_eq_climbing`).
-/

namespace Minifier

open Node

/-- The fields of a pattern hold what they are for: `properties` and `elements` no single child, and `value`, `left` and
`argument` no list. -/
structure Node.Shaped (n : Node) : Prop where
  properties : n.kind = .objectPattern → n.child? "properties" = none
  elements : n.kind = .arrayPattern → n.child? "elements" = none
  value : n.kind = .property → n.slots? "value" = none
  left : n.kind = .assignmentPattern → n.slots? "left" = none
  argument : n.kind = .restElement → n.slots? "argument" = none

instance (n : Node) : Decidable n.Shaped :=
  decidable_of_iff
    ((n.kind = .objectPattern → n.child? "properties" = none) ∧
      (n.kind = .arrayPattern → n.child? "elements" = none) ∧
      (n.kind = .property → n.slots? "value" = none) ∧
      (n.kind = .assignmentPattern → n.slots? "left" = none) ∧
      (n.kind = .restElement → n.slots? "argument" = none))
    ⟨fun h => ⟨h.1, h.2.1, h.2.2.1, h.2.2.2.1, h.2.2.2.2⟩,
      fun h => ⟨h.properties, h.elements, h.value, h.left, h.argument⟩⟩

namespace Scope

open Occurrence

variable {t : Node} {o : Occurrence}

/-! ## The length of a climb -/

/-- The ancestors of a position below another one are as many more as there are steps between them. -/
theorem exists_ancestors_append {n : Node} {p q : Path} (h : t.at? (p ++ q) = some n) :
    ∃ between, between.length = q.length ∧ t.ancestors (p ++ q) = between ++ t.ancestors p := by
  induction q using List.reverseRecOn generalizing n with
  | nil => exact ⟨[], rfl, by simp⟩
  | append_singleton q step ih =>
      rw [← List.append_assoc] at h ⊢
      rw [at?_append] at h
      obtain ⟨m, hm, _⟩ := Option.bind_eq_some_iff.mp h
      obtain ⟨between, hlength, hancestors⟩ := ih hm
      refine ⟨⟨p ++ q, m, step⟩ :: between, by simp [hlength], ?_⟩
      rw [ancestors_concat hm, hancestors, List.cons_append]

theorem patternDepth_le_length (ancestors : List Ancestor) :
    patternDepth ancestors ≤ ancestors.length := by
  induction ancestors with
  | nil => exact Nat.le_refl 0
  | cons a above ih =>
      rw [patternDepth]
      split
      · exact Nat.succ_le_succ ih
      · exact Nat.zero_le _

/-- A climb that goes through all ancestors takes a step inside a pattern from each. -/
theorem isPatternStep_of_mem {ancestors : List Ancestor} (h : patternDepth ancestors = ancestors.length)
    {a : Ancestor} (ha : a ∈ ancestors) : ∃ parent, isPatternStep a parent = true := by
  induction ancestors with
  | nil => cases ha
  | cons b above ih =>
      rw [patternDepth] at h
      split at h
      · rename_i hstep
        rcases List.mem_cons.mp ha with rfl | ha
        · exact ⟨_, hstep⟩
        · exact ih (Nat.succ.inj h) ha
      · cases h

/-- A climb goes on past an ancestor iff it comes there and the step from there stays inside a pattern. -/
theorem lt_patternDepth_iff (between : List Ancestor) (a : Ancestor) (above : List Ancestor) :
    between.length < patternDepth (between ++ a :: above) ↔
      between.length ≤ patternDepth (between ++ a :: above) ∧ isPatternStep a above.head? = true := by
  induction between with
  | nil =>
      rw [List.nil_append, patternDepth]
      split <;> simp [*]
  | cons b between ih =>
      rw [List.cons_append, patternDepth]
      split
      · simp only [List.length_cons, Nat.add_lt_add_iff_right, Nat.add_le_add_iff_right]
        exact ih
      · simp

/-- The climb from the second occurrence goes through every step up to the first, which is above it. -/
def Climbs (t : Node) (o x : Occurrence) : Prop :=
  x.path.length ≤ o.path.length + patternDepth (t.ancestors x.path)

instance (t : Node) (o x : Occurrence) : Decidable (Climbs t o x) :=
  inferInstanceAs (Decidable (_ ≤ _))

theorem Climbs.refl (t : Node) (o : Occurrence) : Climbs t o o := Nat.le_add_right _ _

/-- One node further up, a climb takes one more step. -/
theorem climbs_iff {c x : Occurrence} {step : Step} (ho : t.Holds o) (hc : o.Contains c)
    (hpath : c.path = o.path ++ [step]) (hx : c.Contains x) :
    Climbs t o x ↔ Climbs t c x ∧ isPatternStep (o.leaving step) (t.ancestors o.path).head? = true := by
  have hat : t.at? x.path = some x.node := (hc.trans hx).holds ho
  obtain ⟨q, hq, -⟩ := hx
  rw [hq] at hat
  obtain ⟨between, hlength, hancestors⟩ := exists_ancestors_append hat
  have habove : t.ancestors c.path = o.leaving step :: t.ancestors o.path := by
    rw [hpath]
    exact ancestors_concat ho step
  have hiff := lt_patternDepth_iff between (o.leaving step) (t.ancestors o.path)
  rw [← habove, ← hancestors, ← hq, hlength] at hiff
  have hclength : c.path.length = o.path.length + 1 := by simp [hpath]
  have hxlength : x.path.length = c.path.length + q.length := by simp [hq]
  unfold Climbs
  constructor
  · intro h
    obtain ⟨hle, hstep⟩ := hiff.mp (by omega)
    exact ⟨by omega, hstep⟩
  · rintro ⟨hle, hstep⟩
    have := hiff.mpr ⟨by omega, hstep⟩
    omega

/-! ## The identifiers that climb -/

/-- The identifiers below an occurrence from which the climb comes up to it. -/
def climbing (t : Node) (o : Occurrence) : List Occurrence :=
  o.below.filter fun x => x.node.kind = .identifier ∧ Climbs t o x

/-- A step down through a field stays inside a pattern. -/
def enters (t : Node) (o : Occurrence) (field : String) : Bool :=
  isPatternStep (o.leaving ⟨field, none⟩) (t.ancestors o.path).head?

/-- The occurrences one step down through a field. -/
def through (o : Occurrence) (field : String) : List Occurrence :=
  (o.child? field).toList ++ o.children field

theorem exists_step_of_mem_through {c : Occurrence} {field : String} (h : c ∈ through o field) :
    o.Contains c ∧ ∃ index, c.path = o.path ++ [⟨field, index⟩] := by
  rcases List.mem_append.mp h with h | h
  · have hchild := Option.mem_toList.mp h
    exact ⟨contains_of_child? hchild, none, (child?_eq_some_iff.mp hchild).2⟩
  · obtain ⟨i, _, hpath⟩ := mem_children_iff.mp h
    exact ⟨contains_of_mem_children h, some i, hpath⟩

theorem contains_of_mem_below {x : Occurrence} (h : x ∈ o.below) : o.Contains x := by
  obtain ⟨q, hpath, hmet⟩ := mem_below_iff.mp h
  exact ⟨q, hpath, at?_of_met? hmet⟩

/-- Below a child, the climb comes up to the parent if it comes up to the child and the child is part of a
pattern. -/
theorem filter_below_of_mem_through {c : Occurrence} {field : String} (ho : t.Holds o)
    (hc : c ∈ through o field) :
    (c.below.filter fun x => x.node.kind = .identifier ∧ Climbs t o x)
      = if enters t o field then climbing t c else [] := by
  obtain ⟨hcontains, index, hpath⟩ := exists_step_of_mem_through hc
  have hiff : ∀ x ∈ c.below, (Climbs t o x ↔ Climbs t c x ∧ enters t o field = true) := by
    intro x hx
    -- Whether a step stays inside a pattern does not depend on the index in a list.
    have hstep := climbs_iff ho hcontains hpath (contains_of_mem_below hx)
    exact hstep
  split
  · rename_i henters
    apply List.filter_congr
    intro x hx
    simp [hiff x hx, henters]
  · rename_i henters
    rw [List.filter_eq_nil_iff]
    intro x hx
    simp [hiff x hx, henters]

/-- **What climbs, level by level.** -/
theorem climbing_eq (ho : t.Holds o) :
    climbing t o = (if o.node.kind = .identifier then [o] else []) ++
      o.node.kind.fields.flatMap fun field =>
        if enters t o field then (through o field).flatMap (climbing t) else [] := by
  have hvisited : o.visited = o.node.kind.fields.flatMap (through o) := visited_eq o
  have hbelow : ((o.visited.flatMap below).filter fun x => x.node.kind = .identifier ∧ Climbs t o x)
      = o.node.kind.fields.flatMap fun field =>
        if enters t o field then (through o field).flatMap (climbing t) else [] := by
    rw [hvisited, List.flatMap_assoc, List.filter_flatMap]
    congr 1
    funext field
    rw [List.filter_flatMap, List.flatMap_congr fun c hc => filter_below_of_mem_through ho hc]
    split <;> simp
  unfold climbing
  rw [below_eq, List.filter_cons, hbelow]
  simp only [Climbs.refl, and_true, decide_eq_true_eq]
  split <;> rfl

/-! ## Parts of patterns -/

/-- The occurrence is a property of an object pattern, and no pattern by itself. -/
def IsEntry (t : Node) (o : Occurrence) : Prop :=
  o.node.kind = .property ∧ ∃ a, (t.ancestors o.path).head? = some a ∧ a.kind = .objectPattern

theorem through_of_child?_eq_none {field : String} (h : o.node.child? field = none) :
    through o field = o.children field := by
  simp [through, Occurrence.child?, h]

theorem through_of_slots?_eq_none {field : String} (h : o.node.slots? field = none) :
    through o field = (o.child? field).toList := by
  simp [through, Occurrence.children, h]

/-- From inside a property of an object pattern the climb goes on only if it comes from the value. -/
theorem climbing_property (ho : t.Holds o) (hshaped : o.node.Shaped) (hentry : IsEntry t o) :
    climbing t o = (o.child? "value").toList.flatMap (climbing t) := by
  obtain ⟨hkind, a, ha, hobject⟩ := hentry
  have hfields : Kind.property.fields = ["key", "value"] := rfl
  rw [climbing_eq ho, ← through_of_slots?_eq_none (hshaped.value hkind)]
  simp [hkind, hfields, enters, isPatternStep, ha, hobject]

/-- What is no part of a pattern keeps a climb from going on. -/
theorem climbing_eq_nil (ho : t.Holds o) (hkind : o.node.kind ≠ .identifier)
    (h : ∀ field, enters t o field = false) : climbing t o = [] := by
  rw [climbing_eq ho]
  simp [hkind, h]

/-- **What climbs to a pattern climbs to one of its parts.** -/
theorem climbing_eq_parts (ho : t.Holds o) (hshaped : ∀ x ∈ o.below, x.node.Shaped)
    (hentry : ¬ IsEntry t o) :
    climbing t o = if o.node.kind = .identifier then [o] else o.patternParts.flatMap (climbing t) := by
  have hself := hshaped o (mem_below_self o)
  cases hkind : o.node.kind with
  | identifier =>
      have hfields : Kind.identifier.fields = [] := rfl
      simp [climbing_eq ho, hkind, hfields]
  | objectPattern =>
      have hfields : Kind.objectPattern.fields = ["properties"] := rfl
      have hlevel : climbing t o = (through o "properties").flatMap (climbing t) := by
        simp [climbing_eq ho, hkind, hfields, enters, isPatternStep]
      rw [hlevel, through_of_child?_eq_none (hself.properties hkind), if_neg (by simp), patternParts, hkind]
      dsimp only
      rw [List.flatMap_assoc]
      apply List.flatMap_congr
      intro property hproperty
      split
      · -- A property is passed through, and its value is the part.
        rename_i hproperty'
        have hmet := mem_below_of_mem_children (by rw [hkind]; decide) hproperty
        obtain ⟨i, habove⟩ := ancestors_of_mem_children ho hproperty
        apply climbing_property ((contains_of_mem_children hproperty).holds ho) (hshaped property hmet)
        exact ⟨hproperty', o.leaving ⟨"properties", some i⟩, by rw [habove]; rfl, hkind⟩
      · simp
  | arrayPattern =>
      have hfields : Kind.arrayPattern.fields = ["elements"] := rfl
      have hlevel : climbing t o = (through o "elements").flatMap (climbing t) := by
        simp [climbing_eq ho, hkind, hfields, enters, isPatternStep]
      simp [hlevel, through_of_child?_eq_none (hself.elements hkind), patternParts, hkind]
  | assignmentPattern =>
      have hfields : Kind.assignmentPattern.fields = ["left", "right"] := rfl
      have hlevel : climbing t o = (through o "left").flatMap (climbing t) := by
        simp [climbing_eq ho, hkind, hfields, enters, isPatternStep]
      simp [hlevel, through_of_slots?_eq_none (hself.left hkind), patternParts, hkind]
  | restElement =>
      have hfields : Kind.restElement.fields = ["argument"] := rfl
      have hlevel : climbing t o = (through o "argument").flatMap (climbing t) := by
        simp [climbing_eq ho, hkind, hfields, enters, isPatternStep]
      simp [hlevel, through_of_slots?_eq_none (hself.argument hkind), patternParts, hkind]
  | property =>
      rw [patternParts, hkind]
      apply climbing_eq_nil ho (by simp [hkind])
      intro field
      rw [Bool.eq_false_iff]
      intro h
      obtain ⟨-, hparent⟩ : field = "value" ∧ ∃ a, (t.ancestors o.path).head? = some a ∧
          a.kind = .objectPattern := by simpa [hkind] using isPatternStep_iff.mp h
      exact hentry ⟨hkind, hparent⟩
  | _ =>
      rw [patternParts, hkind]
      apply climbing_eq_nil ho (by simp [hkind])
      intro field
      simp [enters, isPatternStep, hkind]

/-- The parts of a pattern are patterns. -/
theorem not_isEntry_of_mem_patternParts {x : Occurrence} (ho : t.Holds o) (hx : x ∈ o.patternParts) :
    ¬ IsEntry t x := by
  rintro ⟨hkind, a, ha, hobject⟩
  have hchild : ∀ {p : Occurrence} {field : String}, t.Holds p → p.child? field = some x →
      p.node.kind = .objectPattern := by
    intro p field hp hx
    rw [ancestors_of_child? hp hx, List.head?_cons] at ha
    cases ha
    exact hobject
  unfold patternParts at hx
  split at hx
  · obtain ⟨property, hproperty, hx⟩ := List.mem_flatMap.mp hx
    split at hx
    · rename_i hproperty'
      have := hchild ((contains_of_mem_children hproperty).holds ho) (Option.mem_toList.mp hx)
      simp [hproperty'] at this
    · rename_i hother
      rw [List.mem_singleton.mp hx] at hkind
      exact hother hkind
  · rename_i harray
    obtain ⟨i, habove⟩ := ancestors_of_mem_children ho hx
    rw [habove, List.head?_cons] at ha
    cases ha
    simp [harray] at hobject
  · rename_i hassignment
    simp [hchild ho (Option.mem_toList.mp hx)] at hassignment
  · rename_i hrest
    simp [hchild ho (Option.mem_toList.mp hx)] at hrest
  · cases hx

/-- **Both readings agree.** -/
theorem bindings_eq_climbing (ho : t.Holds o) (hshaped : ∀ x ∈ o.below, x.node.Shaped)
    (hentry : ¬ IsEntry t o) : o.bindings = climbing t o := by
  induction o using bindings_induction with
  | step o ih =>
      rw [bindings_eq, climbing_eq_parts ho hshaped hentry]
      split
      · rfl
      · apply List.flatMap_congr
        intro x hx
        refine ih x hx ((contains_of_mem_patternParts hx).holds ho) ?_ (not_isEntry_of_mem_patternParts ho hx)
        intro y hy
        exact hshaped y (mem_below_trans (mem_below_of_mem_patternParts hx) hy)

/-! ## Whole patterns -/

/-- Up to the root, a climb goes through all ancestors. -/
theorem climbs_root_iff {x : Occurrence} (hx : x ∈ t.occurrences) :
    Climbs t ⟨[], t⟩ x ↔ patternDepth (t.ancestors x.path) = (t.ancestors x.path).length := by
  have hlength := length_ancestors (holds_of_mem_occurrences hx)
  have hle := patternDepth_le_length (t.ancestors x.path)
  simp only [Climbs, List.length_nil]
  omega

/-- **The two readings of a pattern agree.** The identifiers that a pattern binds, in order, are those that a traversal
meets in it and from which the climb goes through every step of the pattern. It is the same climb wherever the
pattern stands, but for a property of an object pattern, which is no pattern by itself. So nothing that is bound
lies in a key, in a default value or in a function. -/
theorem bindings_iff_climb {n : Node} (hn : ∀ x ∈ n.occurrences, x.node.Shaped) :
    (Occurrence.mk [] n).bindings = (n.occurrences.filter fun x =>
      x.node.kind = .identifier ∧ patternDepth (n.ancestors x.path) = (n.ancestors x.path).length) ∧
    (∀ (t : Node) (p : Path), t.at? p = some n → ¬ IsEntry t ⟨p, n⟩ →
      (Occurrence.mk p n).bindings = (Occurrence.mk p n).below.filter fun x =>
        x.node.kind = .identifier ∧ x.path.length ≤ p.length + patternDepth (t.ancestors x.path)) ∧
    ∀ x ∈ (Occurrence.mk [] n).bindings, ∀ a ∈ n.ancestors x.path,
      a.field ≠ "key" ∧ a.field ≠ "right" ∧ a.kind.isFunction = false := by
  have hroot : (Occurrence.mk [] n).bindings = (n.occurrences.filter fun x =>
      x.node.kind = .identifier ∧ patternDepth (n.ancestors x.path) = (n.ancestors x.path).length) := by
    have hentry : ¬ IsEntry n ⟨[], n⟩ := by
      rintro ⟨-, a, ha, -⟩
      cases ha
    have hholds : n.Holds ⟨[], n⟩ := at?_nil n
    rw [bindings_eq_climbing hholds hn hentry]
    apply List.filter_congr
    intro x hx
    simp only [climbs_root_iff hx]
  refine ⟨hroot, ?_, ?_⟩
  · intro t p hp hentry
    have hholds : t.Holds ⟨p, n⟩ := hp
    apply bindings_eq_climbing hholds ?_ hentry
    intro x hx
    obtain ⟨q, -, hmet⟩ := mem_below_iff.mp hx
    exact hn ⟨q, x.node⟩ (mem_occurrences_iff.mpr hmet)
  · intro x hx a ha
    rw [hroot, List.mem_filter, decide_eq_true_eq] at hx
    obtain ⟨parent, hstep⟩ := isPatternStep_of_mem hx.2.2 ha
    rcases isPatternStep_iff.mp hstep with h | h | h | h | h <;> simp [h, Kind.isFunction]

/-- `{ a, [k]: [c, , ...d], e = function (f) {} }` -/
def nestedPattern : Node :=
  ⟨.objectPattern, [("properties", .list
    [some ⟨.property, [("key", .child (Expression.identifier "a")),
      ("value", .child (Expression.identifier "a"))]⟩,
     some ⟨.property, [("computed", .value (.bool true)), ("key", .child (Expression.identifier "k")),
      ("value", .child ⟨.arrayPattern, [("elements", .list
        [some (Expression.identifier "c"), none,
         some ⟨.restElement, [("argument", .child (Expression.identifier "d"))]⟩])]⟩)]⟩,
     some ⟨.property, [("key", .child (Expression.identifier "e")),
      ("value", .child ⟨.assignmentPattern, [("left", .child (Expression.identifier "e")),
        ("right", .child ⟨.functionExpression,
          [("params", .list [some (Expression.identifier "f")])]⟩)]⟩)]⟩])]⟩

theorem bindings_iff_climb_nested :
    (∀ x ∈ nestedPattern.occurrences, x.node.Shaped) ∧
    (nestedPattern.occurrences.filter fun x => x.node.kind = .identifier ∧
      patternDepth (nestedPattern.ancestors x.path) = (nestedPattern.ancestors x.path).length).filterMap
        (·.node.name?) = ["a", "c", "d", "e"] := by
  have hshaped : ∀ x ∈ nestedPattern.occurrences, x.node.Shaped := by decide +kernel
  refine ⟨hshaped, ?_⟩
  rw [← (bindings_iff_climb hshaped).1]
  decide +kernel

end Scope

end Minifier
