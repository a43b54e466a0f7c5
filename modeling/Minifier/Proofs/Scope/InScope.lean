import Minifier.Expression
import Minifier.Mangle.Discovery
import Minifier.Proofs.Scope.Binders
import Minifier.Scope.Resolve

/-!
# Where a resolved reference stands

To resolve a name is to climb the ancestors of a reference and to stop at the first binding that
matches (`stop?`). An ancestor shows its bindings to all that is below it, whichever field this is in. So the
search may stop at a binding that is not in scope where the reference stands.

* `InScope` says that a reference stands where the binding found for it is visible: a `var` variable of a
  function in the body of the function, a lexical binding of a switch in the cases of the switch, and
  everything that may be renamed below the scope that owns it.
* Owners are no concern of the search: what an ancestor shows is owned by it or from above it
  (`owner_of_shows`), except for the variables of a body that is itself a function.
* **Main result** (`resolve_inScope_iff`). The search stops out of scope iff the reference stands beside
  the body of the function whose variable it finds, or in the discriminant of the switch whose lexical
  binding it finds.
-/

namespace Minifier

open Node

/-- A regular tree in which switches hold cases, and nothing but the root is a program. -/
structure Node.WellFormed (t : Node) : Prop extends t.Regular where
  cases : t.FieldHolds .switchStatement "cases" (· == .switchCase)
  programs : ∀ o ∈ t.occurrences, o.node.kind = .program → o.path = []

instance (t : Node) : Decidable t.WellFormed :=
  decidable_of_iff
    (t.Regular ∧ t.FieldHolds .switchStatement "cases" (· == .switchCase) ∧
      ∀ o ∈ t.occurrences, o.node.kind = .program → o.path = [])
    ⟨fun h => ⟨h.1, h.2.1, h.2.2⟩, fun h => ⟨h.toRegular, h.cases, h.programs⟩⟩

namespace Scope

open Occurrence

variable {t : Node}

/-! ## Where the search stops -/

/-- The first binding that matches a name, with the ancestor that shows it. -/
def stop? (marks : Marks) (name : String) (ancestors : List Ancestor) :
    Option (Ancestor × Occurrence) :=
  ancestors.findSome? fun a =>
    (a.occurrence.visibleBindings.find? fun b => (matching? marks name b).isSome).map (a, ·)

theorem findSome?_matching? (marks : Marks) (name : String) (l : List Occurrence) :
    l.findSome? (matching? marks name)
      = (l.find? fun b => (matching? marks name b).isSome).bind (matching? marks name) := by
  induction l with
  | nil => rfl
  | cons b l ih =>
      rw [List.findSome?_cons, List.find?_cons]
      cases h : matching? marks name b with
      | none => exact ih
      | some r => exact h.symm

/-- The binding at which the search stops decides what the name refers to. -/
theorem resolve_eq_stop? (marks : Marks) (name : String) (ancestors : List Ancestor) :
    resolve ancestors name marks
      = ((stop? marks name ancestors).bind fun found => matching? marks name found.2).getD
          .unresolved := by
  unfold resolve stop?
  congr 1
  induction ancestors with
  | nil => rfl
  | cons a above ih =>
      rw [List.findSome?_cons, List.findSome?_cons, ih, findSome?_matching?]
      cases h : a.occurrence.visibleBindings.find? fun b => (matching? marks name b).isSome with
      | none => rfl
      | some b =>
          have hb := List.find?_some h
          obtain ⟨r, hr⟩ := Option.isSome_iff_exists.mp hb
          simp [hr]

theorem matching?_of_stop? {marks : Marks} {name : String} {ancestors : List Ancestor} {a : Ancestor}
    {b : Occurrence} (h : stop? marks name ancestors = some (a, b)) :
    a ∈ ancestors ∧ b ∈ a.occurrence.visibleBindings ∧
      matching? marks name b = some (resolve ancestors name marks) := by
  have hresolve := resolve_eq_stop? marks name ancestors
  rw [h, Option.bind_some] at hresolve
  obtain ⟨a', ha, hfound⟩ := List.exists_of_findSome?_eq_some h
  obtain ⟨b', hb, heq⟩ := Option.map_eq_some_iff.mp hfound
  cases heq
  have hsome := List.find?_some hb
  obtain ⟨r, hr⟩ := Option.isSome_iff_exists.mp hsome
  refine ⟨ha, List.mem_of_find?_eq_some hb, ?_⟩
  rw [hresolve, hr]
  rfl

/-! ## Being in scope -/

/-- The identifier below the ancestors is declared by `var`. -/
def isVariable (ancestors : List Ancestor) : Bool :=
  match outside ancestors with
  | declarator :: declaration :: _ =>
    declarator.kind == .variableDeclarator && declaration.node.text? "kind" == some "var"
  | _ => false

/-- A binding that the ancestor of a position shows is visible at the position. -/
structure InScope (t : Node) (p : Path) (a : Ancestor) (b : Occurrence) : Prop where
  inBody : a.kind.isFunction = true → isVariable (t.ancestors b.path) = true → a.field = "body"
  inCases : a.kind = .switchStatement → isVariable (t.ancestors b.path) = false → a.field = "cases"
  owner : ∀ site ∈ classify? (t.ancestors b.path), site.2 ∈ (t.ancestors p).map (·.path)

/-- The ancestor shows the binding to a part of itself where the binding is not visible: a variable of the
body of a function beside the body, or a lexical binding of a switch in the discriminant. -/
def Leaks (t : Node) (a : Ancestor) (b : Occurrence) : Prop :=
  (a.kind.isFunction = true ∧ isVariable (t.ancestors b.path) = true ∧
      (a.field = "id" ∨ a.field = "params")) ∨
    (a.kind = .switchStatement ∧ isVariable (t.ancestors b.path) = false ∧
      a.field = "discriminant")

instance (t : Node) (a : Ancestor) (b : Occurrence) : Decidable (Leaks t a b) :=
  inferInstanceAs (Decidable (_ ∨ _))

/-! ## Owners -/

theorem mem_of_owner? {lexical : Bool} {l : List Ancestor} {p : Path} (h : owner? lexical l = some p) :
    p ∈ l.map (·.path) := by
  induction l with
  | nil => cases h
  | cons a above ih =>
      rw [owner?] at h
      split at h
      · cases h
        exact List.mem_cons_self
      · exact List.mem_cons_of_mem _ (ih h)

/-- A search for an owner that starts at a position ends above it, or at the root. -/
theorem isPrefixOf_of_ownerOrRoot? {b p : Path} {n m : Node} (hb : t.at? b = some n)
    (hp : t.at? p = some m) {lexical : Bool} {owner : Path}
    (h : ownerOrRoot? (t.ancestors b) lexical (t.ancestors p) = some owner) :
    owner = [] ∨ owner <+: p ∧ owner ≠ p := by
  rw [ownerOrRoot?, Option.or_eq_some_iff] at h
  rcases h with h | ⟨_, h⟩
  · exact .inr ((mem_map_path_ancestors_iff hp).mp (mem_of_owner? h))
  · left
    cases b with
    | nil => cases h
    | cons step b =>
        rw [getLast?_ancestors hb (List.cons_ne_nil _ _)] at h
        exact (Option.some.inj h).symm

/-- What is owned from where a node stands is owned at or above the parent of the node. -/
theorem OwnedFrom.isPrefixOf_parent {b p : Path} {n : Node} {s : Occurrence} {step : Step}
    (h : OwnedFrom (t.ancestors b) (t.ancestors s.path)) (hb : t.at? b = some n) (hs : t.Holds s)
    (hpath : s.path = p ++ [step]) {site : BindingSite} {owner : Path}
    (hclassify : classify? (t.ancestors b) = some (site, owner)) : owner <+: p := by
  obtain ⟨lexical, howner⟩ := h site owner hclassify
  rcases isPrefixOf_of_ownerOrRoot? hb hs howner with rfl | ⟨hpre, hne⟩
  · exact ⟨p, rfl⟩
  · rw [hpath] at hpre hne
    rcases List.prefix_concat_iff.mp hpre with heq | hpre
    · exact absurd heq hne
    · exact hpre

/-- Only parameters, variables, and the names of declared functions and classes may be renamed. -/
theorem classify?_eq_none {l above : List Ancestor} {a : Ancestor} (h : outside l = a :: above)
    (hkind : a.kind ≠ .variableDeclarator ∧ a.kind ≠ .functionDeclaration ∧
      a.kind ≠ .classDeclaration) (hfield : a.kind.isFunction = true → a.field ≠ "params") :
    classify? l = none := by
  obtain ⟨hdeclarator, hfunction, hclass⟩ := hkind
  unfold outside at h
  simp only [classify?, h]
  split
  · rename_i hparams
    rw [Bool.and_eq_true] at hparams
    exact absurd (eq_of_beq hparams.2) (hfield hparams.1)
  · split <;> grind

/-- Nodes that are neither functions nor programs are passed by. -/
theorem owner?_append {between above : List Ancestor}
    (h : ∀ a ∈ between, isFunctionScope a.kind = false) :
    owner? false (between ++ above) = owner? false above := by
  induction between with
  | nil => rfl
  | cons a between ih =>
      have ha := h a List.mem_cons_self
      rw [List.cons_append, owner?, ha, Bool.false_and, Bool.or_false, if_neg Bool.false_ne_true]
      exact ih fun a ha => h a (List.mem_cons_of_mem _ ha)

/-- The owner of a hoisted variable is the node that it was hoisted out of, if this is a function or a
program, and is else looked for above. -/
theorem owner_of_mem_hoisted (ht : t.WellFormed) {o b : Occurrence} (ho : o ∈ t.occurrences)
    (h : b ∈ o.hoisted) {site : BindingSite} {owner : Path}
    (hclassify : classify? (t.ancestors b.path) = some (site, owner)) :
    isVariable (t.ancestors b.path) = true ∧
      ∀ path, (if isFunctionScope o.node.kind = true then some o.path
          else owner? false (t.ancestors o.path)) = some path → owner = path := by
  obtain ⟨v, hv, hkind, hvar, hb, hbetween⟩ := exists_of_mem_hoisted ho h
  have hvmet := mem_occurrences_of_mem_below ho hv
  obtain ⟨d, i, hdkind, houtside⟩ := outside_of_mem_declared ht.toRegular hvmet hkind hb
  refine ⟨by simp [isVariable, houtside, hdkind, hvar], ?_⟩
  -- The search starts above the declaration and passes everything up to where the hoisting started.
  have howner : owner? false (t.ancestors v.path)
      = if isFunctionScope o.node.kind = true then some o.path
        else owner? false (t.ancestors o.path) := by
    rcases hbetween with rfl | ⟨between, step, hancestors, hall⟩
    · simp [isFunctionScope, hkind, Kind.isFunction]
    · have hpass : ∀ a ∈ between, isFunctionScope a.kind = false := by
        intro a ha
        obtain ⟨hbarrier, hpath⟩ := hall a ha
        have hamet : a.occurrence ∈ t.occurrences := by
          refine mem_occurrences_of_mem_ancestors (mem_occurrences_iff.mp hvmet) ?_
          rw [hancestors]
          exact List.mem_append_left _ ha
        have hprogram : a.kind ≠ .program := fun hkind => hpath (ht.programs _ hamet hkind)
        simp only [isHoistBarrier, Bool.or_eq_false_iff] at hbarrier
        simp [isFunctionScope, hbarrier.1.1, hprogram]
      rw [hancestors, owner?_append hpass, owner?]
      simp
  intro path hpath
  rw [classify?_of_declarator houtside hdkind rfl, node_leaving, hvar] at hclassify
  obtain ⟨_, hfound, hsite⟩ := Option.map_eq_some_iff.mp hclassify
  cases hsite
  rw [bne_self_eq_false, ownerOrRoot?, howner, hpath, Option.some_or] at hfound
  exact (Option.some.inj hfound).symm

theorem owner_of_statement (ht : t.Regular) {s b : Occurrence} (hs : s ∈ t.occurrences)
    (hb : b ∈ s.statementBindings) {p : Path} {step : Step} (hpath : s.path = p ++ [step])
    {site : BindingSite} {owner : Path}
    (hclassify : classify? (t.ancestors b.path) = some (site, owner)) : owner <+: p := by
  have hholds := holds_of_mem_occurrences hs
  have hb' := (contains_of_mem_statementBindings hb).holds hholds
  exact (bound_of_mem_statementBindings ht hs hb).owned.isPrefixOf_parent hb' hholds hpath hclassify

/-- An arm owns nothing, so that its statements are owned at or above the switch. -/
theorem owner_of_arm (ht : t.WellFormed) {o arm s b : Occurrence} (ho : o ∈ t.occurrences)
    (hkind : o.node.kind = .switchStatement) (harm : arm ∈ o.children "cases")
    (hs : s ∈ arm.children "consequent") (hb : b ∈ s.statementBindings) {site : BindingSite}
    {owner : Path} (hclassify : classify? (t.ancestors b.path) = some (site, owner)) :
    owner <+: o.path := by
  have harmkind : arm.node.kind = .switchCase := by simpa using ht.cases o ho hkind arm harm
  have harmmet := mem_occurrences_of_mem_below ho
    (mem_below_of_mem_children (by rw [hkind]; decide) harm)
  have hsmet := mem_occurrences_of_mem_below harmmet
    (mem_below_of_mem_children (by rw [harmkind]; decide) hs)
  have harmholds := holds_of_mem_occurrences harmmet
  have hb' := (contains_of_mem_statementBindings hb).holds (holds_of_mem_occurrences hsmet)
  have howned := (bound_of_mem_statementBindings ht.toRegular hsmet hb).owned
  obtain ⟨i, habove⟩ := ancestors_of_mem_children harmholds hs
  rw [habove] at howned
  have howned := howned.skip (by simp [isFunctionScope, harmkind, Kind.isFunction])
    (by intro parent; simp [isBlockScope, harmkind])
  obtain ⟨j, _, hpath⟩ := mem_children_iff.mp harm
  exact howned.isPrefixOf_parent hb' harmholds hpath hclassify

theorem owner_of_ownName {o b : Occurrence} (ho : t.Holds o)
    (hkind : o.node.kind.isFunction = true ∨ o.node.kind.isClass = true)
    (hb : o.child? "id" = some b) {site : BindingSite} {owner : Path}
    (hclassify : classify? (t.ancestors b.path) = some (site, owner)) : owner <+: o.path := by
  by_cases hdeclaration : o.node.kind = .functionDeclaration ∨ o.node.kind = .classDeclaration
  · obtain ⟨lexical, howner⟩ := (bound_of_id ho hdeclaration hb).owned site owner hclassify
    rcases isPrefixOf_of_ownerOrRoot? ((contains_of_child? hb).holds ho) ho howner with rfl | ⟨hpre, _⟩
    · exact ⟨o.path, rfl⟩
    · exact hpre
  · -- The name of an expression is never renamed.
    exfalso
    rw [not_or] at hdeclaration
    have hpattern : ∀ parent, isPatternStep (o.leaving ⟨"id", none⟩) parent = false := by
      intro parent
      rcases hkind with hkind | hkind
      · exact not_isPatternStep_of_isFunction hkind
      · rcases Kind.isClass_iff.mp hkind with hkind | hkind <;> simp [isPatternStep, hkind]
    have hdeclarator : o.node.kind ≠ .variableDeclarator := by
      intro heq
      simp [heq, Kind.isFunction, Kind.isClass] at hkind
    have hnone : classify? (o.leaving ⟨"id", none⟩ :: t.ancestors o.path) = none :=
      classify?_eq_none (outside_of_not_isPatternStep (hpattern _))
        ⟨hdeclarator, hdeclaration.1, hdeclaration.2⟩ fun _ => by simp
    rw [ancestors_of_child? ho hb, hnone] at hclassify
    cases hclassify

theorem body_mem_fields {kind : Kind} (h : kind.isFunction = true) : "body" ∈ kind.fields := by
  rcases Kind.isFunction_iff.mp h with rfl | rfl | rfl <;> decide

theorem body_mem_fields_of_isStatementList {kind : Kind} (h : kind.isStatementList = true) :
    "body" ∈ kind.fields := by
  rcases Kind.isStatementList_iff.mp h with rfl | rfl | rfl <;> decide

/-- **A binding is owned at or above the node that shows it**, or else it is a variable of the function
that is the body of the node. -/
theorem owner_of_shows (ht : t.WellFormed) {o b : Occurrence} (ho : o ∈ t.occurrences)
    (h : Shows o b) {site : BindingSite} {owner : Path}
    (hclassify : classify? (t.ancestors b.path) = some (site, owner)) :
    owner <+: o.path ∨
      (o.node.kind.isFunction = true ∧ isVariable (t.ancestors b.path) = true ∧
        ∃ body, o.child? "body" = some body ∧ isFunctionScope body.node.kind = true ∧
          owner = body.path) := by
  have hholds := holds_of_mem_occurrences ho
  cases h with
  | parameter hkind hp hb =>
      left
      obtain ⟨direct, hparameter⟩ := classify?_of_parameter hholds hkind hp hb
      rw [hparameter] at hclassify
      cases hclassify
      exact List.prefix_rfl
  | @hoisted body hkind hbody hb =>
      have hbodymet := mem_occurrences_of_mem_below ho
        (mem_below_of_child? (body_mem_fields hkind) hbody)
      obtain ⟨hvariable, howner⟩ := owner_of_mem_hoisted ht hbodymet hb hclassify
      by_cases hscope : isFunctionScope body.node.kind = true
      · right
        exact ⟨hkind, hvariable, body, hbody, hscope, howner body.path (if_pos hscope)⟩
      · left
        have hfunction : isFunctionScope o.node.kind = true := by simp [isFunctionScope, hkind]
        have howner : owner = o.path := by
          apply howner
          rw [if_neg hscope, ancestors_of_child? hholds hbody, owner?, kind_leaving, hfunction,
            Bool.true_or, if_pos rfl, path_leaving]
        subst howner
        exact List.prefix_rfl
  | ownName hkind hb => exact .inl (owner_of_ownName hholds hkind hb hclassify)
  | statement hkind hs hb =>
      left
      have hsmet := mem_occurrences_of_mem_below ho
        (mem_below_of_mem_children (body_mem_fields_of_isStatementList hkind) hs)
      obtain ⟨i, _, hpath⟩ := mem_children_iff.mp hs
      exact owner_of_statement ht.toRegular hsmet hb hpath hclassify
  | global hkind hb =>
      left
      have hprogram : isFunctionScope o.node.kind = true := by rw [hkind]; rfl
      have howner := (owner_of_mem_hoisted ht ho hb hclassify).2 o.path (if_pos hprogram)
      subst howner
      exact List.prefix_rfl
  | arm hkind harm hs hb => exact .inl (owner_of_arm ht ho hkind harm hs hb hclassify)
  | @head field s hkind hs hb =>
      left
      have hfield : field ∈ o.node.kind.fields := by
        rcases hkind with ⟨hkind, rfl⟩ | ⟨hkind | hkind, rfl⟩ <;> rw [hkind] <;> decide
      have hsmet := mem_occurrences_of_mem_below ho (mem_below_of_child? hfield hs)
      exact owner_of_statement ht.toRegular hsmet hb (child?_eq_some_iff.mp hs).2 hclassify
  | caught hkind hp hb =>
      exfalso
      have houtside := outside_of_caught hholds hkind hp hb
      rw [classify?_eq_none houtside (by simp [hkind]) (by simp [hkind, Kind.isFunction])] at hclassify
      cases hclassify

/-! ## The search and the scopes -/

theorem field_of_isFunction {kind : Kind} (h : kind.isFunction = true) {field : String}
    (hfield : field ∈ kind.fields) : field = "body" ∨ field = "id" ∨ field = "params" := by
  have hall : ∀ field ∈ kind.fields, field = "body" ∨ field = "id" ∨ field = "params" := by
    rcases Kind.isFunction_iff.mp h with rfl | rfl | rfl <;> decide
  exact hall field hfield

/-- A field that holds a single node is left by one step only. -/
theorem step_eq_of_child? {n c body : Node} {step : Step} (h : n.step? step = some c)
    (hbody : n.child? step.field = some body) : step = ⟨step.field, none⟩ := by
  obtain ⟨field, index⟩ := step
  cases index with
  | none => rfl
  | some i =>
      obtain ⟨slots, hslots, _⟩ := Option.bind_eq_some_iff.mp h
      rw [Node.slots?_eq_some_iff] at hslots
      rw [Node.child?_eq_some_iff, hslots] at hbody
      cases hbody

theorem isPrefixOf_of_child? {n : Node} {q : Path} (hq : t.at? q = some n) {a : Ancestor}
    (ha : a ∈ t.ancestors q) {body : Occurrence} (hbody : a.occurrence.child? a.field = some body) :
    body.path <+: q := by
  obtain ⟨hpre, hat⟩ := (mem_ancestors_iff hq).mp ha
  obtain ⟨hstep, hpath⟩ := child?_eq_some_iff.mp hbody
  obtain ⟨rest, hrest⟩ := hpre
  rw [← hrest, List.append_assoc, at?_append, hat, Option.bind_some, List.singleton_append, at?_cons]
    at hq
  obtain ⟨c, hc, _⟩ := Option.bind_eq_some_iff.mp hq
  have hsame : a.step = ⟨a.field, none⟩ := step_eq_of_child? hc hstep
  rw [hpath, ← hsame]
  exact ⟨rest, hrest⟩

/-- What is shown to where it is visible is owned by an ancestor of it. -/
theorem owner_mem_of_shows (ht : t.WellFormed) {r : Occurrence} (hr : r ∈ t.occurrences)
    (hn : Mangle.isNamed r.node = true) {a : Ancestor} (ha : a ∈ t.ancestors r.path) {b : Occurrence}
    (h : Shows a.occurrence b)
    (hbody : a.kind.isFunction = true → isVariable (t.ancestors b.path) = true → a.field = "body")
    {site : BindingSite} {owner : Path}
    (hclassify : classify? (t.ancestors b.path) = some (site, owner)) :
    owner ∈ (t.ancestors r.path).map (·.path) := by
  have hmet := mem_occurrences_iff.mp hr
  have hat := at?_of_met? hmet
  rw [mem_map_path_ancestors_iff hat]
  have hapath : a.path <+: r.path ∧ a.path ≠ r.path :=
    (mem_map_path_ancestors_iff hat).mp (List.mem_map_of_mem ha)
  have hamet := mem_occurrences_of_mem_ancestors hmet ha
  rcases owner_of_shows ht hamet h hclassify with hpre | ⟨hkind, hvariable, body, hchild, hscope, rfl⟩
  · refine ⟨hpre.trans hapath.1, fun heq => hapath.2 ?_⟩
    subst heq
    exact hapath.1.eq_of_length_le hpre.length_le
  · have hfield := hbody hkind hvariable
    refine ⟨isPrefixOf_of_child? hat ha (hfield ▸ hchild), fun heq => ?_⟩
    -- The identifier is not the function that is the body.
    have hholds := (contains_of_child? hchild).holds (holds_of_mem_occurrences hamet)
    rw [← heq] at hmet
    rw [eq_of_met? hmet hholds] at hscope
    simp only [Mangle.isNamed, Bool.or_eq_true, beq_iff_eq] at hn
    rcases hn with hn | hn <;> simp [isFunctionScope, hn, Kind.isFunction] at hscope

/-- **When the search stops in scope.** The binding at which the search for a name stops decides what the
name refers to. It is visible where the identifier stands, unless it is a variable of a function and
the identifier stands beside the body of that, or a lexical binding of a switch and the identifier
stands in the discriminant of that. -/
theorem resolve_inScope_iff (ht : t.WellFormed) {r : Occurrence} (hr : r ∈ t.occurrences)
    (hn : Mangle.isNamed r.node = true) {marks : Marks} {name : String} {a : Ancestor} {b : Occurrence}
    (h : stop? marks name (t.ancestors r.path) = some (a, b)) :
    matching? marks name b = some (resolve (t.ancestors r.path) name marks) ∧
      (InScope t r.path a b ↔ ¬ Leaks t a b) := by
  obtain ⟨ha, hb, hmatching⟩ := matching?_of_stop? h
  refine ⟨hmatching, ?_⟩
  have hfield := field_mem_of_mem_ancestors (mem_occurrences_iff.mp hr) ha
  constructor
  · rintro ⟨hbody, hcases, _⟩ (⟨hkind, hvariable, hbeside⟩ | ⟨hkind, hlexical, hbeside⟩)
    · rw [hbody hkind hvariable] at hbeside
      exact absurd hbeside (by decide)
    · rw [hcases hkind hlexical] at hbeside
      exact absurd hbeside (by decide)
  · intro hleaks
    rw [Leaks, not_or] at hleaks
    have hbody : a.kind.isFunction = true → isVariable (t.ancestors b.path) = true →
        a.field = "body" := by
      intro hkind hvariable
      have hbeside : ¬ (a.field = "id" ∨ a.field = "params") :=
        fun hbeside => hleaks.1 ⟨hkind, hvariable, hbeside⟩
      exact (field_of_isFunction hkind hfield).resolve_right hbeside
    refine ⟨hbody, ?_, ?_⟩
    · intro hkind hlexical
      have hbeside : a.field ≠ "discriminant" :=
        fun hbeside => hleaks.2 ⟨hkind, hlexical, hbeside⟩
      have hfields : a.field = "discriminant" ∨ a.field = "cases" := by
        rw [hkind] at hfield
        exact List.mem_pair.mp hfield
      exact hfields.resolve_left hbeside
    · rintro ⟨site, owner⟩ hclassify
      exact owner_mem_of_shows ht hr hn ha (shows_of_mem_visibleBindings hb) hbody hclassify

/-- `function f(a = x) { var x; }` -/
def earlyDefault : Node :=
  ⟨.program, [("body", .list
    [some ⟨.functionDeclaration,
      [("id", .child (Expression.identifier "f")),
       ("params", .list
        [some ⟨.assignmentPattern, [("left", .child (Expression.identifier "a")),
          ("right", .child (Expression.identifier "x"))]⟩]),
       ("body", .child ⟨.blockStatement, [("body", .list
        [some ⟨.variableDeclaration, [("kind", .value (.string "var")), ("declarations", .list
          [some ⟨.variableDeclarator, [("id", .child (Expression.identifier "x"))]⟩])]⟩])]⟩)]⟩])]⟩

/-- The default value of a parameter is resolved to a variable that it cannot refer to. -/
theorem resolve_inScope_iff_earlyDefault :
    earlyDefault.WellFormed ∧
      resolve (earlyDefault.ancestors [⟨"body", some 0⟩, ⟨"params", some 0⟩, ⟨"right", none⟩]) "x" []
        = .shadowed ∧
      ∃ a b, stop? [] "x"
          (earlyDefault.ancestors [⟨"body", some 0⟩, ⟨"params", some 0⟩, ⟨"right", none⟩])
            = some (a, b) ∧
        ¬ InScope earlyDefault [⟨"body", some 0⟩, ⟨"params", some 0⟩, ⟨"right", none⟩] a b := by
  have hwell : earlyDefault.WellFormed := by decide +kernel
  have hsome : (stop? [] "x" (earlyDefault.ancestors
      [⟨"body", some 0⟩, ⟨"params", some 0⟩, ⟨"right", none⟩])).isSome = true := by decide +kernel
  have hleaks : ∀ found ∈ stop? [] "x" (earlyDefault.ancestors
      [⟨"body", some 0⟩, ⟨"params", some 0⟩, ⟨"right", none⟩]),
      Leaks earlyDefault found.1 found.2 := by decide +kernel
  have hmet : (⟨[⟨"body", some 0⟩, ⟨"params", some 0⟩, ⟨"right", none⟩],
      Expression.identifier "x"⟩ : Occurrence) ∈ earlyDefault.occurrences :=
    mem_occurrences_iff.mpr rfl
  obtain ⟨⟨a, b⟩, h⟩ := Option.isSome_iff_exists.mp hsome
  refine ⟨hwell, by decide +kernel, a, b, h, fun hscope => ?_⟩
  exact (resolve_inScope_iff hwell hmet rfl h).2.mp hscope (hleaks _ h)

end Scope

end Minifier
