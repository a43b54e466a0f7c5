import Minifier.Proofs.Scope.Enumeration
import Minifier.Scope.Declaration

/-!
# Enumerated bindings and declarations

Bindings are found in two ways. Going down, `visibleBindings` enumerates what an ancestor shows.
Going up, `classify?` and `isFixedBinding` tell from its ancestors whether an identifier declares a
binding, and in which scope. Here the two are compared.

* `Shows` lists the ways in which a binding can be enumerated.
* In a regular tree, what is enumerated below a statement is a declaration when looked at from below,
  owned by a scope at or above the list that the statement stands in
  (`bound_of_mem_statementBindings`, `declares_of_mem_hoisted`).
* Everything that is enumerated is a declaration, unless it lies where no traversal comes
  (`declares_of_shows`).
-/

namespace Minifier

open Node

/-! ## Regular trees -/

/-- The nodes that a traversal meets in a list field of one kind of node are of certain kinds. -/
def Node.FieldHolds (t : Node) (kind : Kind) (field : String) (p : Kind → Bool) : Prop :=
  ∀ o ∈ t.occurrences, o.node.kind = kind → ∀ c ∈ o.children field, p c.node.kind

instance (t : Node) (kind : Kind) (field : String) (p : Kind → Bool) :
    Decidable (t.FieldHolds kind field p) :=
  inferInstanceAs (Decidable (∀ o ∈ t.occurrences, _ → ∀ c ∈ o.children field, _))

/-- The three forms of import specifiers. -/
def Kind.isImportSpecifier : Kind → Bool
  | .importSpecifier | .importDefaultSpecifier | .importNamespaceSpecifier => true
  | _ => false

namespace Kind

theorem isImportSpecifier_iff {kind : Kind} :
    kind.isImportSpecifier = true ↔
      kind = .importSpecifier ∨ kind = .importDefaultSpecifier ∨ kind = .importNamespaceSpecifier := by
  cases kind <;> simp [isImportSpecifier]

theorem isFunction_iff {kind : Kind} :
    kind.isFunction = true ↔
      kind = .functionDeclaration ∨ kind = .functionExpression ∨ kind = .arrowFunctionExpression := by
  cases kind <;> simp [isFunction]

theorem isClass_iff {kind : Kind} :
    kind.isClass = true ↔ kind = .classDeclaration ∨ kind = .classExpression := by
  cases kind <;> simp [isClass]

theorem isStatementList_iff {kind : Kind} :
    kind.isStatementList = true ↔
      kind = .program ∨ kind = .blockStatement ∨ kind = .staticBlock := by
  cases kind <;> simp [isStatementList]

end Kind

/-- Declarations hold declarators, and imports hold specifiers. -/
structure Node.Regular (t : Node) : Prop where
  declarators : t.FieldHolds .variableDeclaration "declarations" (· == .variableDeclarator)
  specifiers : t.FieldHolds .importDeclaration "specifiers" Kind.isImportSpecifier

instance (t : Node) : Decidable t.Regular :=
  decidable_of_iff
    (t.FieldHolds .variableDeclaration "declarations" (· == .variableDeclarator) ∧
      t.FieldHolds .importDeclaration "specifiers" Kind.isImportSpecifier)
    ⟨fun h => ⟨h.1, h.2⟩, fun h => ⟨h.declarators, h.specifiers⟩⟩

namespace Occurrence

/-- The occurrence as an ancestor of what lies past a step. -/
def leaving (o : Occurrence) (step : Step) : Ancestor := ⟨o.path, o.node, step⟩

@[simp] theorem kind_leaving (o : Occurrence) (step : Step) : (o.leaving step).kind = o.node.kind := rfl

@[simp] theorem field_leaving (o : Occurrence) (step : Step) : (o.leaving step).field = step.field :=
  rfl

@[simp] theorem path_leaving (o : Occurrence) (step : Step) : (o.leaving step).path = o.path := rfl

@[simp] theorem node_leaving (o : Occurrence) (step : Step) : (o.leaving step).node = o.node := rfl

variable {t : Node}

theorem ancestors_of_child? {o c : Occurrence} {field : String} (ho : t.Holds o)
    (h : o.child? field = some c) :
    t.ancestors c.path = o.leaving ⟨field, none⟩ :: t.ancestors o.path := by
  rw [(child?_eq_some_iff.mp h).2]
  exact ancestors_concat ho _

theorem ancestors_of_mem_children {o c : Occurrence} {field : String} (ho : t.Holds o)
    (h : c ∈ o.children field) :
    ∃ i, t.ancestors c.path = o.leaving ⟨field, some i⟩ :: t.ancestors o.path := by
  obtain ⟨i, _, hpath⟩ := mem_children_iff.mp h
  rw [hpath]
  exact ⟨i, ancestors_concat ho _⟩

end Occurrence

namespace Scope

open Occurrence

/-! ## Out of a pattern -/

/-- The ancestors outside the pattern around a position. -/
def outside (ancestors : List Ancestor) : List Ancestor := ancestors.drop (patternDepth ancestors)

theorem outside_of_isPatternStep {a : Ancestor} {above : List Ancestor}
    (h : isPatternStep a above.head? = true) : outside (a :: above) = outside above := by
  simp [outside, patternDepth, h]

theorem outside_of_not_isPatternStep {a : Ancestor} {above : List Ancestor}
    (h : isPatternStep a above.head? = false) : outside (a :: above) = a :: above := by
  simp [outside, patternDepth, h]

variable {t : Node}

theorem outside_of_mem_patternParts {o x : Occurrence} (ho : t.Holds o) (h : x ∈ o.patternParts) :
    outside (t.ancestors x.path) = outside (t.ancestors o.path) := by
  unfold patternParts at h
  split at h
  · rename_i hkind
    obtain ⟨property, hproperty, hx⟩ := List.mem_flatMap.mp h
    obtain ⟨i, habove⟩ := ancestors_of_mem_children ho hproperty
    have hstep : outside (t.ancestors property.path) = outside (t.ancestors o.path) := by
      rw [habove]
      exact outside_of_isPatternStep (by simp [isPatternStep, hkind])
    split at hx
    · rename_i hkind'
      have hholds := (contains_of_mem_children hproperty).holds ho
      rw [ancestors_of_child? hholds (Option.mem_toList.mp hx), ← hstep]
      apply outside_of_isPatternStep
      rw [habove]
      simp [isPatternStep, hkind, hkind']
    · rw [List.mem_singleton.mp hx]
      exact hstep
  · rename_i hkind
    obtain ⟨i, habove⟩ := ancestors_of_mem_children ho h
    rw [habove]
    exact outside_of_isPatternStep (by simp [isPatternStep, hkind])
  · rename_i hkind
    rw [ancestors_of_child? ho (Option.mem_toList.mp h)]
    exact outside_of_isPatternStep (by simp [isPatternStep, hkind])
  · rename_i hkind
    rw [ancestors_of_child? ho (Option.mem_toList.mp h)]
    exact outside_of_isPatternStep (by simp [isPatternStep, hkind])
  · cases h

/-- Climbing out of a pattern from one of its bindings leads to what is around the pattern. -/
theorem outside_of_mem_bindings {o b : Occurrence} (ho : t.Holds o) (h : b ∈ o.bindings) :
    outside (t.ancestors b.path) = outside (t.ancestors o.path) := by
  induction o using bindings_induction with
  | step o ih =>
      rw [bindings_eq] at h
      split at h
      · rw [List.mem_singleton.mp h]
      · obtain ⟨x, hx, hb⟩ := List.mem_flatMap.mp h
        rw [ih x hx ((contains_of_mem_patternParts hx).holds ho) hb]
        exact outside_of_mem_patternParts ho hx

/-! ## Reading a declaration from below -/

theorem classify?_of_params {l above : List Ancestor} {a : Ancestor} (h : outside l = a :: above)
    (hkind : a.kind.isFunction = true) (hfield : a.field = "params") :
    classify? l = some (.parameter (patternDepth l == 0), a.path) := by
  unfold outside at h
  simp [classify?, h, hkind, hfield]

theorem classify?_of_declarator {l above : List Ancestor} {a d : Ancestor}
    (h : outside l = a :: d :: above) (hkind : a.kind = .variableDeclarator)
    (hfield : a.field = "id") :
    classify? l
      = (ownerOrRoot? l (d.node.text? "kind" != some "var") above).map (.declarator, ·) := by
  unfold outside at h
  simp only [classify?, h, hkind, hfield]
  rfl

theorem classify?_of_declaration {a : Ancestor} {above : List Ancestor}
    (hkind : a.kind = .functionDeclaration ∨ a.kind = .classDeclaration) (hfield : a.field = "id") :
    classify? (a :: above) = (ownerOrRoot? (a :: above) true above).map (.declaration, ·) := by
  have hdepth : patternDepth (a :: above) = 0 := by
    rcases hkind with hkind | hkind <;> simp [patternDepth, isPatternStep, hkind]
  rcases hkind with hkind | hkind
  · simp only [classify?, hdepth, List.drop_zero, hkind, hfield]
    rfl
  · simp only [classify?, hdepth, List.drop_zero, hkind, hfield]
    rfl

theorem classify?_of_specifier {a : Ancestor} {above : List Ancestor}
    (hkind : a.kind.isImportSpecifier = true) : classify? (a :: above) = none := by
  rcases Kind.isImportSpecifier_iff.mp hkind with hkind | hkind | hkind <;>
    · have hdepth : patternDepth (a :: above) = 0 := by simp [patternDepth, isPatternStep, hkind]
      simp only [classify?, hdepth, List.drop_zero, hkind]
      rfl

theorem isSome_ownerOrRoot? {l : List Ancestor} (h : l ≠ []) (lexical : Bool)
    (above : List Ancestor) : (ownerOrRoot? l lexical above).isSome = true := by
  have hlast : l.getLast?.isSome = true := by
    rw [List.getLast?_eq_some_getLast h, Option.isSome_some]
  rw [ownerOrRoot?, Option.isSome_or, Option.isSome_map, hlast, Bool.or_true]

/-- The identifier below the ancestors declares a binding. -/
def Declares (ancestors : List Ancestor) : Prop :=
  (classify? ancestors).isSome = true ∨ isFixedBinding ancestors = true

/-- The scope that owns the binding declared below the ancestors, if one does, is found among `above`. -/
def OwnedFrom (ancestors above : List Ancestor) : Prop :=
  ∀ site owner, classify? ancestors = some (site, owner) →
    ∃ lexical, ownerOrRoot? ancestors lexical above = some owner

/-- What is neither a function nor a block owns nothing. -/
theorem OwnedFrom.skip {l above : List Ancestor} {a : Ancestor} (h : OwnedFrom l (a :: above))
    (hfunction : isFunctionScope a.kind = false)
    (hblock : ∀ parent, isBlockScope a parent = false) : OwnedFrom l above := by
  intro site owner hclassify
  obtain ⟨lexical, howner⟩ := h site owner hclassify
  refine ⟨lexical, ?_⟩
  rwa [ownerOrRoot?, owner?, hfunction, hblock, Bool.and_false, Bool.or_false,
    if_neg Bool.false_ne_true] at howner

theorem ownedFrom_of_eq {l above : List Ancestor} {lexical : Bool} {site : BindingSite}
    (h : classify? l = (ownerOrRoot? l lexical above).map (site, ·)) : OwnedFrom l above := by
  intro site' owner hclassify
  rw [h] at hclassify
  obtain ⟨path, hpath, heq⟩ := Option.map_eq_some_iff.mp hclassify
  cases heq
  exact ⟨lexical, hpath⟩

theorem declares_of_eq {l above : List Ancestor} {lexical : Bool} {site : BindingSite} (hl : l ≠ [])
    (h : classify? l = (ownerOrRoot? l lexical above).map (site, ·)) : Declares l := by
  left
  rw [h, Option.isSome_map]
  exact isSome_ownerOrRoot? hl lexical above

/-! ## Bindings of statements -/

/-- A binding of a statement: it is a declaration when looked at from below, and it is owned from where the
statement stands. -/
structure Bound (t : Node) (s b : Occurrence) : Prop where
  declares : Declares (t.ancestors b.path)
  owned : OwnedFrom (t.ancestors b.path) (t.ancestors s.path)

/-- What is around a declared variable. -/
theorem outside_of_mem_declared (ht : t.Regular) {o b : Occurrence} (ho : o ∈ t.occurrences)
    (hkind : o.node.kind = .variableDeclaration) (h : b ∈ o.declared) :
    ∃ (d : Occurrence) (i : Nat), d.node.kind = .variableDeclarator ∧
      outside (t.ancestors b.path)
        = d.leaving ⟨"id", none⟩ :: o.leaving ⟨"declarations", some i⟩ :: t.ancestors o.path := by
  obtain ⟨d, hd, root, hroot, hb⟩ := mem_declared_iff.mp h
  have hdkind : d.node.kind = .variableDeclarator := by
    simpa using ht.declarators o ho hkind d hd
  have hholds := holds_of_mem_occurrences ho
  have hdholds := (contains_of_mem_children hd).holds hholds
  obtain ⟨i, hdabove⟩ := ancestors_of_mem_children hholds hd
  refine ⟨d, i, hdkind, ?_⟩
  rw [outside_of_mem_bindings ((contains_of_child? hroot).holds hdholds) hb,
    ancestors_of_child? hdholds hroot, hdabove]
  exact outside_of_not_isPatternStep (by simp [isPatternStep, hdkind])

theorem bound_of_mem_declared (ht : t.Regular) {o b : Occurrence} (ho : o ∈ t.occurrences)
    (hkind : o.node.kind = .variableDeclaration) (h : b ∈ o.declared) : Bound t o b := by
  obtain ⟨d, i, hdkind, houtside⟩ := outside_of_mem_declared ht ho hkind h
  have hclassify := classify?_of_declarator houtside hdkind rfl
  have hne : t.ancestors b.path ≠ [] := by
    intro hnil
    rw [hnil] at houtside
    cases houtside
  exact ⟨declares_of_eq hne hclassify, ownedFrom_of_eq hclassify⟩

/-- The name of a declared function or class. -/
theorem bound_of_id {o b : Occurrence} (ho : t.Holds o)
    (hkind : o.node.kind = .functionDeclaration ∨ o.node.kind = .classDeclaration)
    (h : o.child? "id" = some b) : Bound t o b := by
  have habove := ancestors_of_child? ho h
  have hclassify : classify? (o.leaving ⟨"id", none⟩ :: t.ancestors o.path) = _ :=
    classify?_of_declaration hkind rfl
  rw [← habove] at hclassify
  have hne : t.ancestors b.path ≠ [] := by rw [habove]; exact List.cons_ne_nil _ _
  exact ⟨declares_of_eq hne hclassify, ownedFrom_of_eq hclassify⟩

/-- A name given to what is imported. -/
theorem bound_of_local (ht : t.Regular) {o s b : Occurrence} (ho : o ∈ t.occurrences)
    (hkind : o.node.kind = .importDeclaration) (hs : s ∈ o.children "specifiers")
    (h : s.child? "local" = some b) : Bound t o b := by
  have hskind := ht.specifiers o ho hkind s hs
  have habove := ancestors_of_child?
    ((contains_of_mem_children hs).holds (holds_of_mem_occurrences ho)) h
  have hfixed : isFixedBinding (t.ancestors b.path) = true := by
    rw [habove]
    rcases Kind.isImportSpecifier_iff.mp hskind with hkind | hkind | hkind <;>
      simp [isFixedBinding, patternDepth, isPatternStep, hkind]
  refine ⟨.inr hfixed, ?_⟩
  intro site owner h
  have hnone : classify? (s.leaving ⟨"local", none⟩ :: t.ancestors s.path) = none :=
    classify?_of_specifier hskind
  rw [habove, hnone] at h
  cases h

/-- **Bindings of statements are declarations.** -/
theorem bound_of_mem_statementBindings (ht : t.Regular) {s b : Occurrence} (hs : s ∈ t.occurrences)
    (h : b ∈ s.statementBindings) : Bound t s b := by
  induction s using exported_induction with
  | step s ih =>
      have hholds := holds_of_mem_occurrences hs
      -- An exported declaration is bound where the export stands.
      have hexport : (s.node.kind = .exportNamedDeclaration ∨
          s.node.kind = .exportDefaultDeclaration) →
          b ∈ (s.child? "declaration").toList.flatMap statementBindings → Bound t s b := by
        intro hkind h
        obtain ⟨x, hx, hb⟩ := List.mem_flatMap.mp h
        have hx := Option.mem_toList.mp hx
        have hxbelow : x ∈ s.below :=
          mem_below_of_child? (by rcases hkind with hkind | hkind <;> rw [hkind] <;> decide) hx
        have hbound := ih x hx (mem_occurrences_of_mem_below hs hxbelow) hb
        refine ⟨hbound.declares, ?_⟩
        have howned := hbound.owned
        rw [ancestors_of_child? hholds hx] at howned
        refine howned.skip ?_ fun parent => ?_
        · rcases hkind with hkind | hkind <;> simp [isFunctionScope, hkind, Kind.isFunction]
        · rcases hkind with hkind | hkind <;> simp [isBlockScope, hkind]
      rw [statementBindings_eq] at h
      split at h
      · rename_i hkind
        exact bound_of_mem_declared ht hs hkind h
      · rename_i hkind
        exact bound_of_id hholds (.inl hkind) (Option.mem_toList.mp h)
      · rename_i hkind
        exact bound_of_id hholds (.inr hkind) (Option.mem_toList.mp h)
      · rename_i hkind
        exact hexport (.inl hkind) h
      · rename_i hkind
        exact hexport (.inr hkind) h
      · rename_i hkind
        obtain ⟨specifier, hspecifier, hb⟩ := List.mem_filterMap.mp h
        exact bound_of_local ht hs hkind hspecifier hb
      · cases h

/-! ## Hoisted variables -/

/-- A hoisted variable is declared by a `var` declaration, with no function, class or static block
between this and where the search for variables started. -/
theorem exists_of_mem_hoisted {o b : Occurrence} (ho : o ∈ t.occurrences) (h : b ∈ o.hoisted) :
    ∃ v ∈ o.below, v.node.kind = .variableDeclaration ∧ v.node.text? "kind" = some "var" ∧
      b ∈ v.declared ∧
      (v = o ∨ ∃ between step,
        t.ancestors v.path = between ++ o.leaving step :: t.ancestors o.path ∧
        ∀ a ∈ between, isHoistBarrier a.kind = false ∧ a.path ≠ []) := by
  induction o using visited_induction with
  | step o ih =>
      rw [hoisted_eq, List.mem_append, List.mem_flatMap] at h
      rcases h with h | ⟨c, hc, hb⟩
      · split at h
        · rename_i hvar
          exact ⟨o, mem_below_self o, hvar.1, hvar.2, h, .inl rfl⟩
        · cases h
      · split at hb
        · cases hb
        · rename_i hbarrier
          have hcbelow := mem_below_of_mem_visited hc
          obtain ⟨v, hv, hkind, htext, hdeclared, hbetween⟩ :=
            ih c hc (mem_occurrences_of_mem_below ho hcbelow) hb
          obtain ⟨⟨step, child⟩, _, rfl⟩ := List.mem_map.mp hc
          have habove : t.ancestors (o.along (step, child)).path
              = o.leaving step :: t.ancestors o.path :=
            ancestors_concat (holds_of_mem_occurrences ho) step
          refine ⟨v, mem_below_trans hcbelow hv, hkind, htext, hdeclared, .inr ?_⟩
          -- The child stands between, unless it is the declaration itself.
          rcases hbetween with rfl | ⟨between, step', heq, hall⟩
          · exact ⟨[], step, habove, by simp⟩
          · refine ⟨between ++ [(o.along (step, child)).leaving step'], step, ?_, ?_⟩
            · rw [heq, habove]
              simp
            · intro a ha
              rcases List.mem_append.mp ha with ha | ha
              · exact hall a ha
              · rw [List.mem_singleton.mp ha]
                exact ⟨by simpa using hbarrier, by simp [along]⟩

theorem declares_of_mem_hoisted (ht : t.Regular) {o b : Occurrence} (ho : o ∈ t.occurrences)
    (h : b ∈ o.hoisted) : Declares (t.ancestors b.path) := by
  obtain ⟨v, hv, hkind, _, hb, _⟩ := exists_of_mem_hoisted ho h
  exact (bound_of_mem_declared ht (mem_occurrences_of_mem_below ho hv) hkind hb).declares

/-! ## All that an ancestor shows -/

/-- The ways in which a node makes a binding visible below it. -/
inductive Shows (o b : Occurrence) : Prop where
  | parameter {p : Occurrence} (hkind : o.node.kind.isFunction = true)
      (hp : p ∈ o.children "params") (hb : b ∈ p.bindings)
  | hoisted {body : Occurrence} (hkind : o.node.kind.isFunction = true)
      (hbody : o.child? "body" = some body) (hb : b ∈ body.hoisted)
  | ownName (hkind : o.node.kind.isFunction = true ∨ o.node.kind.isClass = true)
      (hb : o.child? "id" = some b)
  | statement {s : Occurrence} (hkind : o.node.kind.isStatementList = true)
      (hs : s ∈ o.children "body") (hb : b ∈ s.statementBindings)
  | global (hkind : o.node.kind = .program) (hb : b ∈ o.hoisted)
  | arm {arm s : Occurrence} (hkind : o.node.kind = .switchStatement)
      (harm : arm ∈ o.children "cases") (hs : s ∈ arm.children "consequent")
      (hb : b ∈ s.statementBindings)
  | head {field : String} {s : Occurrence}
      (hkind : (o.node.kind = .forStatement ∧ field = "init") ∨
        ((o.node.kind = .forInStatement ∨ o.node.kind = .forOfStatement) ∧ field = "left"))
      (hs : o.child? field = some s) (hb : b ∈ s.statementBindings)
  | caught {p : Occurrence} (hkind : o.node.kind = .catchClause) (hp : o.child? "param" = some p)
      (hb : b ∈ p.bindings)

/-- A list that is there only if a child is. -/
theorem mem_getD_map {o : Option Occurrence} {f : Occurrence → List Occurrence} {b : Occurrence} :
    b ∈ (o.map f).getD [] ↔ ∃ x, o = some x ∧ b ∈ f x := by
  cases o <;> simp

/-- **Inversion.** What a node shows, it shows in one of these ways. -/
theorem shows_of_mem_visibleBindings {o b : Occurrence} (h : b ∈ o.visibleBindings) :
    Shows o b := by
  unfold visibleBindings at h
  split at h
  · rename_i hkind
    rw [List.mem_append, List.mem_append] at h
    rcases h with (h | h) | h
    · obtain ⟨p, hp, hb⟩ := List.mem_flatMap.mp h
      exact .parameter hkind hp hb
    · obtain ⟨body, hbody, hb⟩ := mem_getD_map.mp h
      exact .hoisted hkind hbody hb
    · exact .ownName (.inl hkind) (Option.mem_toList.mp h)
  · split at h
    · rename_i hkind
      exact .ownName (.inr hkind) (Option.mem_toList.mp h)
    · split at h
      · rename_i hkind
        rcases List.mem_append.mp h with h | h
        · obtain ⟨s, hs, hb⟩ := List.mem_flatMap.mp h
          exact .statement (by rw [hkind]; rfl) hs hb
        · exact .global hkind h
      · rename_i hkind
        obtain ⟨s, hs, hb⟩ := List.mem_flatMap.mp h
        exact .statement (by rw [hkind]; rfl) hs hb
      · rename_i hkind
        obtain ⟨s, hs, hb⟩ := List.mem_flatMap.mp h
        exact .statement (by rw [hkind]; rfl) hs hb
      · rename_i hkind
        obtain ⟨arm, harm, h⟩ := List.mem_flatMap.mp h
        obtain ⟨s, hs, hb⟩ := List.mem_flatMap.mp h
        exact .arm hkind harm hs hb
      · rename_i hkind
        obtain ⟨s, hs, hb⟩ := mem_getD_map.mp h
        exact .head (.inl ⟨hkind, rfl⟩) hs hb
      · rename_i hkind
        obtain ⟨s, hs, hb⟩ := mem_getD_map.mp h
        exact .head (.inr ⟨.inl hkind, rfl⟩) hs hb
      · rename_i hkind
        obtain ⟨s, hs, hb⟩ := mem_getD_map.mp h
        exact .head (.inr ⟨.inr hkind, rfl⟩) hs hb
      · rename_i hkind
        obtain ⟨p, hp, hb⟩ := mem_getD_map.mp h
        exact .caught hkind hp hb
      · cases h

/-- A node shows exactly what it makes visible. -/
theorem mem_visibleBindings_iff {o b : Occurrence} : b ∈ o.visibleBindings ↔ Shows o b := by
  refine ⟨shows_of_mem_visibleBindings, ?_⟩
  intro h
  unfold visibleBindings
  cases h with
  | parameter hkind hp hb =>
      rw [if_pos hkind, List.mem_append, List.mem_append]
      exact .inl (.inl (List.mem_flatMap.mpr ⟨_, hp, hb⟩))
  | hoisted hkind hbody hb =>
      rw [if_pos hkind, List.mem_append, List.mem_append]
      exact .inl (.inr (mem_getD_map.mpr ⟨_, hbody, hb⟩))
  | ownName hkind hb =>
      have hname := Option.mem_toList.mpr hb
      by_cases hfunction : o.node.kind.isFunction = true
      · rw [if_pos hfunction]
        exact List.mem_append_right _ hname
      · rw [if_neg hfunction, if_pos (hkind.resolve_left hfunction)]
        exact hname
  | statement hkind hs hb =>
      have hmem := List.mem_flatMap.mpr ⟨_, hs, hb⟩
      rcases Kind.isStatementList_iff.mp hkind with hkind | hkind | hkind <;> rw [hkind]
      · exact List.mem_append_left _ hmem
      · exact hmem
      · exact hmem
  | global hkind hb =>
      rw [hkind]
      exact List.mem_append_right _ hb
  | arm hkind harm hs hb =>
      rw [hkind]
      exact List.mem_flatMap.mpr ⟨_, harm, List.mem_flatMap.mpr ⟨_, hs, hb⟩⟩
  | head hkind hs hb =>
      have hmem := mem_getD_map.mpr ⟨_, hs, hb⟩
      rcases hkind with ⟨hkind, rfl⟩ | ⟨hkind | hkind, rfl⟩ <;>
        · rw [hkind]
          exact hmem
  | caught hkind hp hb =>
      rw [hkind]
      exact mem_getD_map.mpr ⟨_, hp, hb⟩

theorem Shows.contains {o b : Occurrence} (h : Shows o b) : o.Contains b := by
  cases h with
  | parameter _ hp hb => exact (contains_of_mem_children hp).trans (contains_of_mem_bindings hb)
  | hoisted _ hbody hb => exact (contains_of_child? hbody).trans (contains_of_mem_hoisted hb)
  | ownName _ hb => exact contains_of_child? hb
  | statement _ hs hb =>
      exact (contains_of_mem_children hs).trans (contains_of_mem_statementBindings hb)
  | global _ hb => exact contains_of_mem_hoisted hb
  | arm _ harm hs hb =>
      exact (contains_of_mem_children harm).trans
        ((contains_of_mem_children hs).trans (contains_of_mem_statementBindings hb))
  | head _ hs hb => exact (contains_of_child? hs).trans (contains_of_mem_statementBindings hb)
  | caught _ hp hb => exact (contains_of_child? hp).trans (contains_of_mem_bindings hb)

theorem mem_occurrences_of_mem_ancestors {n : Node} {q : Path} (hq : t.met? q = some n)
    {a : Ancestor} (ha : a ∈ t.ancestors q) : a.occurrence ∈ t.occurrences := by
  obtain ⟨hpre, hat⟩ := (mem_ancestors_iff (at?_of_met? hq)).mp ha
  have hmet : (⟨q, n⟩ : Occurrence) ∈ t.occurrences := mem_occurrences_iff.mpr hq
  exact mem_occurrences_of_isPrefixOf hat hmet ((List.prefix_append _ _).trans hpre)

theorem not_isPatternStep_of_isFunction {a : Ancestor} {parent : Option Ancestor}
    (h : a.kind.isFunction = true) : isPatternStep a parent = false := by
  rcases Kind.isFunction_iff.mp h with h | h | h <;> simp [isPatternStep, h]

/-- A parameter, or the parameter of a catch clause: the binder around the pattern is the node itself. -/
theorem outside_of_pattern {o root b : Occurrence} {step : Step} (hroot : t.Holds root)
    (habove : t.ancestors root.path = o.leaving step :: t.ancestors o.path)
    (hstep : ∀ parent, isPatternStep (o.leaving step) parent = false) (hb : b ∈ root.bindings) :
    outside (t.ancestors b.path) = o.leaving step :: t.ancestors o.path := by
  rw [outside_of_mem_bindings hroot hb, habove]
  exact outside_of_not_isPatternStep (hstep _)

theorem classify?_of_parameter {o p b : Occurrence} (ho : t.Holds o)
    (hkind : o.node.kind.isFunction = true) (hp : p ∈ o.children "params") (hb : b ∈ p.bindings) :
    ∃ direct, classify? (t.ancestors b.path) = some (.parameter direct, o.path) := by
  obtain ⟨i, habove⟩ := ancestors_of_mem_children ho hp
  have houtside := outside_of_pattern ((contains_of_mem_children hp).holds ho) habove
    (fun parent => not_isPatternStep_of_isFunction hkind) hb
  exact ⟨_, classify?_of_params houtside hkind rfl⟩

theorem outside_of_caught {o p b : Occurrence} (ho : t.Holds o) (hkind : o.node.kind = .catchClause)
    (hp : o.child? "param" = some p) (hb : b ∈ p.bindings) :
    outside (t.ancestors b.path) = o.leaving ⟨"param", none⟩ :: t.ancestors o.path :=
  outside_of_pattern ((contains_of_child? hp).holds ho) (ancestors_of_child? ho hp)
    (by intro parent; simp [isPatternStep, hkind]) hb

/-- The name of a function or class that has one to be met. -/
theorem declares_of_ownName {o b : Occurrence} (ho : t.Holds o)
    (hkind : o.node.kind.isFunction = true ∨ o.node.kind.isClass = true)
    (hfield : "id" ∈ o.node.kind.fields) (h : o.child? "id" = some b) :
    Declares (t.ancestors b.path) := by
  by_cases hdeclaration : o.node.kind = .functionDeclaration ∨ o.node.kind = .classDeclaration
  · rw [ancestors_of_child? ho h]
    exact declares_of_eq (List.cons_ne_nil _ _) (classify?_of_declaration hdeclaration rfl)
  · -- What is left are the names of expressions, which are never renamed.
    right
    have hexpression : o.node.kind = .functionExpression ∨ o.node.kind = .classExpression := by
      rw [Kind.isFunction_iff, Kind.isClass_iff] at hkind
      rcases hkind with (hkind | hkind | hkind) | (hkind | hkind)
      · exact absurd (.inl hkind) hdeclaration
      · exact .inl hkind
      · rw [hkind] at hfield
        exact absurd hfield (by decide)
      · exact absurd (.inr hkind) hdeclaration
      · exact .inr hkind
    rw [ancestors_of_child? ho h]
    rcases hexpression with hkind | hkind <;>
      simp [isFixedBinding, patternDepth, isPatternStep, hkind]

/-- **Enumerated and met is declared.** What a node shows is a declaration when looked at from below, unless
it lies where no traversal comes. -/
theorem declares_of_shows (ht : t.Regular) {o b : Occurrence} (ho : o ∈ t.occurrences)
    (h : Shows o b) (hmet : b ∈ t.occurrences) : Declares (t.ancestors b.path) := by
  have hholds := holds_of_mem_occurrences ho
  -- What is met stands below statements that are met.
  have hstatement : ∀ s, o.Contains s → b ∈ s.statementBindings → Declares (t.ancestors b.path) := by
    intro s hs hb
    have hsmet := mem_occurrences_of_isPrefixOf (hs.holds hholds) hmet
      (contains_of_mem_statementBindings hb).isPrefixOf
    exact (bound_of_mem_statementBindings ht hsmet hb).declares
  cases h with
  | parameter hkind hp hb =>
      obtain ⟨direct, hclassify⟩ := classify?_of_parameter hholds hkind hp hb
      left
      rw [hclassify]
      rfl
  | hoisted hkind hbody hb =>
      have hbodymet := mem_occurrences_of_isPrefixOf ((contains_of_child? hbody).holds hholds) hmet
        (contains_of_mem_hoisted hb).isPrefixOf
      exact declares_of_mem_hoisted ht hbodymet hb
  | ownName hkind hb =>
      have hstep : o.leaving ⟨"id", none⟩ ∈ t.ancestors b.path := by
        rw [ancestors_of_child? hholds hb]
        exact List.mem_cons_self
      have hfield := field_mem_of_mem_ancestors (mem_occurrences_iff.mp hmet) hstep
      exact declares_of_ownName hholds hkind hfield hb
  | statement hkind hs hb => exact hstatement _ (contains_of_mem_children hs) hb
  | global hkind hb => exact declares_of_mem_hoisted ht ho hb
  | arm hkind harm hs hb =>
      exact hstatement _ ((contains_of_mem_children harm).trans (contains_of_mem_children hs)) hb
  | head hkind hs hb => exact hstatement _ (contains_of_child? hs) hb
  | caught hkind hp hb =>
      right
      have houtside := outside_of_caught hholds hkind hp hb
      unfold outside at houtside
      simp [isFixedBinding, houtside, hkind]

/-! ## What is visible at a position -/

/-- What is visible at a position stands in the tree. -/
theorem holds_of_mem_visible {q : Path} {b : Occurrence} (hb : b ∈ visible (t.ancestors q)) :
    t.Holds b := by
  obtain ⟨a, ha, hb⟩ := List.mem_flatMap.mp hb
  exact (shows_of_mem_visibleBindings hb).contains.holds (at?_of_mem_ancestors ha)

theorem declares_of_mem_visible (ht : t.Regular) {n : Node} {q : Path} (hq : t.met? q = some n)
    {b : Occurrence} (hb : b ∈ visible (t.ancestors q)) (hmet : b ∈ t.occurrences) :
    Declares (t.ancestors b.path) := by
  obtain ⟨a, ha, hb⟩ := List.mem_flatMap.mp hb
  exact declares_of_shows ht (mem_occurrences_of_mem_ancestors hq ha)
    (shows_of_mem_visibleBindings hb) hmet

end Scope

end Minifier
