import Minifier.Proofs.Scope.InScope

/-!
# Where statements stand

Nodes hold any nodes in any field. In the trees of programs, statements and their parts stand in certain
fields only: a list of statements, the branch of an `if`, the body of a loop. `Kind.takes` is the table of
these fields, and a tree is `Grammatical` if it keeps to it and if the fields that hold lists hold nothing
else.

Going up from a node of such a tree is the inverse of going down. A node is one of the children that its
parent has in the field that leads to it (`Parent.mem_children`, `Parent.child?`), and an identifier that
is reached from a pattern is one that the pattern binds (`exists_root`).
-/

namespace Minifier

open Node

namespace Kind

/-- Declarations of variables, functions and classes. -/
def isDeclaration : Kind → Bool
  | .variableDeclaration | .functionDeclaration | .classDeclaration => true
  | _ => false

/-- Statements, with the declarations among them. -/
def isStatement : Kind → Bool
  | .expressionStatement | .blockStatement | .emptyStatement | .debuggerStatement | .withStatement
  | .returnStatement | .labeledStatement | .breakStatement | .continueStatement | .ifStatement
  | .switchStatement | .throwStatement | .tryStatement | .whileStatement | .doWhileStatement
  | .forStatement | .forInStatement | .forOfStatement => true
  | kind => kind.isDeclaration

/-- What stands beside the statements of a module. -/
def isModuleItem : Kind → Bool
  | .importDeclaration | .exportNamedDeclaration | .exportDefaultDeclaration
  | .exportAllDeclaration => true
  | _ => false

/-- Nodes of the kind stand in certain fields only. -/
def isPlaced : Kind → Bool
  | .program | .staticBlock | .switchCase | .catchClause | .variableDeclarator => true
  | kind => kind.isStatement || kind.isModuleItem

/-- The field holds a single statement, with no list around it. -/
def isLone : Kind → String → Bool
  | .ifStatement, "consequent" | .ifStatement, "alternate" | .labeledStatement, "body"
  | .withStatement, "body" | .whileStatement, "body" | .doWhileStatement, "body"
  | .forStatement, "body" | .forInStatement, "body" | .forOfStatement, "body" => true
  | _, _ => false

/-- The field declares variables for a loop. -/
def isHead : Kind → String → Bool
  | .forStatement, "init" | .forInStatement, "left" | .forOfStatement, "left" => true
  | _, _ => false

/-- The field exports what stands there. -/
def isExport : Kind → String → Bool
  | .exportNamedDeclaration, "declaration" | .exportDefaultDeclaration, "declaration" => true
  | _, _ => false

/-- A node of the last kind, of those that have certain places, may stand in the field of a node of the first
kind. -/
def takes (host : Kind) (field : String) (kind : Kind) : Bool :=
  match host, field with
  | .program, "body" => kind.isStatement || kind.isModuleItem
  | .blockStatement, "body" | .staticBlock, "body" | .switchCase, "consequent" => kind.isStatement
  | .functionDeclaration, "body" | .functionExpression, "body" | .arrowFunctionExpression, "body"
  | .tryStatement, "block" | .tryStatement, "finalizer" | .catchClause, "body" =>
    kind == .blockStatement
  | .tryStatement, "handler" => kind == .catchClause
  | .switchStatement, "cases" => kind == .switchCase
  | .variableDeclaration, "declarations" => kind == .variableDeclarator
  | .classBody, "body" => kind == .staticBlock
  | _, _ =>
    (isLone host field && kind.isStatement) ||
      (isHead host field && kind == .variableDeclaration) || (isExport host field && kind.isDeclaration)

/-- The field holds a list. -/
def isListField : Kind → String → Bool
  | .program, "body" | .blockStatement, "body" | .staticBlock, "body" | .classBody, "body"
  | .switchStatement, "cases" | .switchCase, "consequent" | .variableDeclaration, "declarations"
  | .functionDeclaration, "params" | .functionExpression, "params"
  | .arrowFunctionExpression, "params" | .arrayExpression, "elements" | .arrayPattern, "elements"
  | .objectExpression, "properties" | .objectPattern, "properties" | .callExpression, "arguments"
  | .newExpression, "arguments" | .sequenceExpression, "expressions" | .templateLiteral, "quasis"
  | .templateLiteral, "expressions" | .comprehensionExpression, "blocks"
  | .generatorExpression, "blocks" | .importDeclaration, "specifiers"
  | .importDeclaration, "attributes" | .exportNamedDeclaration, "specifiers"
  | .exportNamedDeclaration, "attributes" | .exportAllDeclaration, "attributes"
  | .jsxElement, "children" | .jsxOpeningElement, "attributes" | .jsxFragment, "children" => true
  | _, _ => false

theorem isDeclaration_iff {kind : Kind} :
    kind.isDeclaration = true ↔
      kind = .variableDeclaration ∨ kind = .functionDeclaration ∨ kind = .classDeclaration := by
  cases kind <;> simp [isDeclaration]

theorem isModuleItem_iff {kind : Kind} :
    kind.isModuleItem = true ↔
      kind = .importDeclaration ∨ kind = .exportNamedDeclaration ∨ kind = .exportDefaultDeclaration ∨
        kind = .exportAllDeclaration := by
  cases kind <;> simp [isModuleItem]

theorem isPlaced_of_isDeclaration {kind : Kind} (h : kind.isDeclaration = true) :
    kind.isPlaced = true := by
  rcases isDeclaration_iff.mp h with rfl | rfl | rfl <;> rfl

theorem isLone_iff {kind : Kind} {field : String} :
    isLone kind field = true ↔
      (kind = .ifStatement ∧ (field = "consequent" ∨ field = "alternate")) ∨
        ((kind = .labeledStatement ∨ kind = .withStatement ∨ kind = .whileStatement ∨
          kind = .doWhileStatement ∨ kind = .forStatement ∨ kind = .forInStatement ∨
          kind = .forOfStatement) ∧ field = "body") := by
  unfold isLone
  split <;> grind

theorem isHead_iff {kind : Kind} {field : String} :
    isHead kind field = true ↔
      (kind = .forStatement ∧ field = "init") ∨
        ((kind = .forInStatement ∨ kind = .forOfStatement) ∧ field = "left") := by
  unfold isHead
  split <;> grind

theorem isExport_iff {kind : Kind} {field : String} :
    isExport kind field = true ↔
      (kind = .exportNamedDeclaration ∨ kind = .exportDefaultDeclaration) ∧ field = "declaration" := by
  unfold isExport
  split <;> grind

/-- Where declarations stand. -/
theorem places_of_isDeclaration {host kind : Kind} {field : String} (hkind : kind.isDeclaration = true)
    (h : takes host field kind = true) :
    (host.isStatementList = true ∧ field = "body") ∨ (host = .switchCase ∧ field = "consequent") ∨
      isHead host field = true ∨ isExport host field = true ∨ isLone host field = true := by
  have hne : kind ≠ .blockStatement ∧ kind ≠ .catchClause ∧ kind ≠ .switchCase ∧
      kind ≠ .variableDeclarator ∧ kind ≠ .staticBlock := by
    rcases isDeclaration_iff.mp hkind with rfl | rfl | rfl <;> decide
  unfold takes at h
  split at h <;> simp_all [isStatementList]
  grind

/-- What takes nodes that have certain places is a function, of which these are the body, or has a certain
place itself. -/
theorem isPlaced_of_takes {host kind : Kind} {field : String} (h : takes host field kind = true) :
    (host.isFunction = true ∧ field = "body" ∧ kind = .blockStatement) ∨ host = .classBody ∨
      (host.isPlaced = true ∧ host.isFunction = false ∧ host.isClass = false) := by
  unfold takes at h
  split at h
  case h_15 =>
    simp only [Bool.or_eq_true, Bool.and_eq_true] at h
    right; right
    rcases h with (⟨h, -⟩ | ⟨h, -⟩) | ⟨h, -⟩
    · rcases isLone_iff.mp h with ⟨rfl, -⟩ | ⟨rfl | rfl | rfl | rfl | rfl | rfl | rfl, -⟩ <;> decide
    · rcases isHead_iff.mp h with ⟨rfl, -⟩ | ⟨rfl | rfl, -⟩ <;> decide
    · rcases isExport_iff.mp h with ⟨rfl | rfl, -⟩ <;> decide
  all_goals simp_all [isFunction, isClass, isPlaced, isStatement, isDeclaration]

theorem takes_switchCase {host : Kind} {field : String} (h : takes host field .switchCase = true) :
    host = .switchStatement ∧ field = "cases" := by
  unfold takes at h
  split at h <;> simp_all [isStatement, isDeclaration, isModuleItem]

theorem takes_variableDeclarator {host : Kind} {field : String}
    (h : takes host field .variableDeclarator = true) :
    host = .variableDeclaration ∧ field = "declarations" := by
  unfold takes at h
  split at h <;> simp_all [isStatement, isDeclaration, isModuleItem]

theorem takes_isModuleItem {host kind : Kind} {field : String} (hkind : kind.isModuleItem = true)
    (h : takes host field kind = true) : host = .program ∧ field = "body" := by
  have hother : kind.isStatement = false ∧ kind.isDeclaration = false ∧ kind ≠ .blockStatement ∧
      kind ≠ .catchClause ∧ kind ≠ .switchCase ∧ kind ≠ .variableDeclarator ∧ kind ≠ .staticBlock ∧
      kind ≠ .variableDeclaration := by
    rcases isModuleItem_iff.mp hkind with rfl | rfl | rfl | rfl <;> decide
  unfold takes at h
  split at h <;> simp_all

theorem takes_classBody {kind : Kind} {field : String} (h : takes .classBody field kind = true) :
    kind = .staticBlock := by
  unfold takes at h
  split at h <;> simp_all [isLone, isHead, isExport]

end Kind

/-! ## Grammatical trees -/

/-- A well-formed program in which statements and their parts stand in their places, and lists in the fields
for lists. -/
structure Node.Grammatical (t : Node) : Prop extends t.WellFormed where
  root : t.kind = .program
  places : ∀ o ∈ t.occurrences, ∀ edge ∈ o.node.visited, edge.2.kind.isPlaced = true →
    o.node.kind.takes edge.1.field edge.2.kind = true
  lists : ∀ o ∈ t.occurrences, ∀ edge ∈ o.node.visited,
    edge.1.index.isSome = o.node.kind.isListField edge.1.field

instance (t : Node) : Decidable t.Grammatical :=
  decidable_of_iff
    (t.WellFormed ∧ t.kind = .program ∧
      (∀ o ∈ t.occurrences, ∀ edge ∈ o.node.visited, edge.2.kind.isPlaced = true →
        o.node.kind.takes edge.1.field edge.2.kind = true) ∧
      ∀ o ∈ t.occurrences, ∀ edge ∈ o.node.visited,
        edge.1.index.isSome = o.node.kind.isListField edge.1.field)
    ⟨fun h => ⟨h.1, h.2.1, h.2.2.1, h.2.2.2⟩, fun h => ⟨h.toWellFormed, h.root, h.places, h.lists⟩⟩

namespace Scope

open Occurrence

variable {t : Node}

/-- The ancestor is the parent of a node that a traversal meets. -/
structure Parent (t : Node) (a : Ancestor) (x : Occurrence) : Prop where
  met : a.occurrence ∈ t.occurrences
  step : a.node.step? a.step = some x.node
  path : x.path = a.path ++ [a.step]
  field : a.field ∈ a.kind.fields

theorem parent_of_ancestors {x : Occurrence} (hx : x ∈ t.occurrences) {a : Ancestor}
    {above : List Ancestor} (h : t.ancestors x.path = a :: above) :
    Parent t a x ∧ above = t.ancestors a.path := by
  have hmet := mem_occurrences_iff.mp hx
  have ha : a ∈ t.ancestors x.path := by
    rw [h]
    exact List.mem_cons_self
  obtain ⟨hpath, habove, hat⟩ := eq_of_ancestors_eq_cons (at?_of_met? hmet) h
  have hstep : a.node.step? a.step = some x.node := by
    have hx := at?_of_met? hmet
    rw [hpath, at?_append, hat] at hx
    simpa using hx
  exact ⟨⟨mem_occurrences_of_mem_ancestors hmet ha, hstep, hpath, field_mem_of_mem_ancestors hmet ha⟩,
    habove⟩

/-- What is no program has a parent. -/
theorem exists_parent (ht : t.Grammatical) {x : Occurrence} (hx : x ∈ t.occurrences)
    (hkind : x.node.kind ≠ .program) : ∃ a, Parent t a x := by
  have hmet := mem_occurrences_iff.mp hx
  have hne : x.path ≠ [] := by
    intro hnil
    rw [hnil, met?_nil, Option.some.injEq] at hmet
    exact hkind (hmet ▸ ht.root)
  cases hancestors : t.ancestors x.path with
  | nil =>
      have hlast := getLast?_ancestors (at?_of_met? hmet) hne
      rw [hancestors] at hlast
      cases hlast
  | cons a above => exact ⟨a, (parent_of_ancestors hx hancestors).1⟩

namespace Parent

variable {a : Ancestor} {x : Occurrence}

theorem ancestors_eq (h : Parent t a x) : t.ancestors x.path = a :: t.ancestors a.path := by
  rw [h.path]
  exact ancestors_concat (holds_of_mem_occurrences h.met) a.step

theorem mem_visited (h : Parent t a x) : (a.step, x.node) ∈ a.node.visited :=
  mem_visited_iff.mpr ⟨h.field, h.step⟩

theorem mem_visited_occurrence (h : Parent t a x) : x ∈ a.occurrence.visited := by
  refine List.mem_map.mpr ⟨(a.step, x.node), h.mem_visited, ?_⟩
  obtain ⟨path, node⟩ := x
  exact congrArg (Occurrence.mk · node) h.path.symm

theorem length_lt (h : Parent t a x) : a.path.length < x.path.length := by
  rw [h.path, List.length_append, List.length_singleton]
  exact Nat.lt_succ_self _

theorem takes (ht : t.Grammatical) (h : Parent t a x) (hplaced : x.node.kind.isPlaced = true) :
    a.kind.takes a.field x.node.kind = true :=
  ht.places a.occurrence h.met _ h.mem_visited hplaced

theorem mem_children (ht : t.Grammatical) (h : Parent t a x)
    (hlist : a.kind.isListField a.field = true) : x ∈ a.occurrence.children a.field := by
  have hindex : a.step.index.isSome = true := by
    rw [ht.lists a.occurrence h.met _ h.mem_visited]
    exact hlist
  obtain ⟨i, hi⟩ := Option.isSome_iff_exists.mp hindex
  have hstep : a.step = ⟨a.field, some i⟩ := by
    rw [← hi]
    rfl
  exact mem_children_iff.mpr ⟨i, hstep ▸ h.step, hstep ▸ h.path⟩

theorem child? (ht : t.Grammatical) (h : Parent t a x)
    (hlist : a.kind.isListField a.field = false) : a.occurrence.child? a.field = some x := by
  have hindex : a.step.index.isSome = false := by
    rw [ht.lists a.occurrence h.met _ h.mem_visited]
    exact hlist
  have hnone : a.step.index = none := by
    rwa [Option.isSome_eq_false_iff, Option.isNone_iff_eq_none] at hindex
  have hstep : a.step = ⟨a.field, none⟩ := by
    rw [← hnone]
    rfl
  exact child?_eq_some_iff.mpr ⟨hstep ▸ h.step, hstep ▸ h.path⟩

end Parent

/-! ## Patterns from below -/

theorem isPatternStep_iff {a : Ancestor} {parent : Option Ancestor} :
    isPatternStep a parent = true ↔
      (a.kind = .objectPattern ∧ a.field = "properties") ∨
        (a.kind = .arrayPattern ∧ a.field = "elements") ∨
        (a.kind = .assignmentPattern ∧ a.field = "left") ∨
        (a.kind = .restElement ∧ a.field = "argument") ∨
        (a.kind = .property ∧ a.field = "value" ∧ ∃ p, parent = some p ∧ p.kind = .objectPattern) := by
  unfold isPatternStep
  split <;> cases parent <;> grind

/-- A step inside a pattern leads to a part of it, unless it leads to a property. -/
theorem exists_patternParts (ht : t.Grammatical) {x : Occurrence} (hx : x ∈ t.occurrences) {a : Ancestor}
    {above : List Ancestor} (hancestors : t.ancestors x.path = a :: above)
    (hstep : isPatternStep a above.head? = true) (hkind : x.node.kind ≠ .property) :
    ∃ o ∈ t.occurrences, o.path.length < x.path.length ∧ x ∈ o.patternParts := by
  obtain ⟨hparent, rfl⟩ := parent_of_ancestors hx hancestors
  rcases isPatternStep_iff.mp hstep with ⟨ha, hfield⟩ | ⟨ha, hfield⟩ | ⟨ha, hfield⟩ | ⟨ha, hfield⟩ |
    ⟨ha, hfield, p, hp, hpkind⟩
  · have hmem := hparent.mem_children ht (by rw [ha, hfield]; rfl)
    refine ⟨a.occurrence, hparent.met, hparent.length_lt, ?_⟩
    rw [patternParts, show a.occurrence.node.kind = .objectPattern from ha]
    refine List.mem_flatMap.mpr ⟨x, hfield ▸ hmem, ?_⟩
    rw [if_neg hkind]
    exact List.mem_singleton_self x
  · have hmem := hparent.mem_children ht (by rw [ha, hfield]; rfl)
    refine ⟨a.occurrence, hparent.met, hparent.length_lt, ?_⟩
    rw [patternParts, show a.occurrence.node.kind = .arrayPattern from ha]
    exact hfield ▸ hmem
  · have hchild := hparent.child? ht (by rw [ha, hfield]; rfl)
    refine ⟨a.occurrence, hparent.met, hparent.length_lt, ?_⟩
    rw [patternParts, show a.occurrence.node.kind = .assignmentPattern from ha]
    exact Option.mem_toList.mpr (hfield ▸ hchild)
  · have hchild := hparent.child? ht (by rw [ha, hfield]; rfl)
    refine ⟨a.occurrence, hparent.met, hparent.length_lt, ?_⟩
    rw [patternParts, show a.occurrence.node.kind = .restElement from ha]
    exact Option.mem_toList.mpr (hfield ▸ hchild)
  · -- The value of a property is a part of the pattern that the property stands in.
    have hchild := hparent.child? ht (by rw [ha, hfield]; rfl)
    obtain ⟨above, habove⟩ := List.head?_eq_some_iff.mp hp
    obtain ⟨hgrand, -⟩ := parent_of_ancestors hparent.met habove
    have hpfield : p.field = "properties" := by
      have := hgrand.field
      rw [hpkind] at this
      exact List.mem_singleton.mp this
    have hmem := hgrand.mem_children ht (by rw [hpkind, hpfield]; rfl)
    refine ⟨p.occurrence, hgrand.met, Nat.lt_trans hgrand.length_lt hparent.length_lt, ?_⟩
    rw [patternParts, show p.occurrence.node.kind = .objectPattern from hpkind]
    refine List.mem_flatMap.mpr ⟨a.occurrence, hpfield ▸ hmem, ?_⟩
    rw [if_pos (show a.occurrence.node.kind = .property from ha)]
    exact Option.mem_toList.mpr (hfield ▸ hchild)

theorem mem_bindings_of_mem_patternParts {o x b : Occurrence} (hx : x ∈ o.patternParts)
    (hb : b ∈ x.bindings) : b ∈ o.bindings := by
  have hkind : o.node.kind ≠ .identifier := by
    intro hkind
    rw [patternParts, hkind] at hx
    cases hx
  rw [bindings_eq, if_neg hkind]
  exact List.mem_flatMap.mpr ⟨x, hx, hb⟩

/-- **Climbing out of a pattern.** What is bound by a node is bound by the whole pattern that the node is part
of, and the climb out of the pattern ends where that stands. -/
theorem exists_root (ht : t.Grammatical) {x b : Occurrence} (hx : x ∈ t.occurrences)
    (hb : b ∈ x.bindings) :
    ∃ root ∈ t.occurrences, b ∈ root.bindings ∧
      outside (t.ancestors x.path) = t.ancestors root.path := by
  induction hlength : x.path.length using Nat.strongRecOn generalizing x with
  | ind length ih =>
      cases hancestors : t.ancestors x.path with
      | nil => exact ⟨x, hx, hb, hancestors.symm⟩
      | cons a above =>
          by_cases hstep : isPatternStep a above.head? = true
          · have hkind : x.node.kind ≠ .property := by
              intro hkind
              rw [bindings_eq, patternParts, hkind] at hb
              cases hb
            obtain ⟨o, ho, hlt, hparts⟩ := exists_patternParts ht hx hancestors hstep hkind
            have hsame := outside_of_mem_patternParts (holds_of_mem_occurrences ho) hparts
            rw [← hancestors, hsame]
            exact ih _ (hlength ▸ hlt) ho (mem_bindings_of_mem_patternParts hparts hb) rfl
          · refine ⟨x, hx, hb, ?_⟩
            rw [hancestors]
            exact outside_of_not_isPatternStep (Bool.eq_false_iff.mpr hstep)

end Scope

end Minifier
