import Minifier.Proofs.Scope.Grammar

/-!
# Owners and what they show

Two searches have to agree. Going up from a declaration, `classify?` finds the scope that owns what is declared:
it passes every statement on the way. Going down from a scope, `visibleBindings` enumerates what the scope
shows: it looks at the statements of lists and at the heads of loops, and for `var` variables at all that
is not in a function, a class or a static block.

* What `classify?` reports is a parameter, or is bound by a declaration that stands in the tree
  (`declared_of_classify?`).
* A variable climbs to the function or the program that owns it, unless a static block is on the way
  (`mem_visibleBindings_or_staticBlock`).
* **Main result** (`owner_enumerates_iff`). The owner enumerates the binding, and the binding is found from
  all that is inside the owner, iff it is not `Lost`: declared by `var` in a static block, or by a declaration
  that stands alone as the body of a label or of a loop, or as the branch of an `if`.
-/

namespace Minifier

open Node

namespace Occurrence

/-- The body of a function, if it is a block. -/
def block? (o : Occurrence) : Option Occurrence :=
  if o.node.kind.isFunction then (o.child? "body").filter (·.node.kind == .blockStatement) else none

/-- All that a scope enumerates: what it makes visible and, for a function, the list of statements of its body. -/
def ownBindings (o : Occurrence) : List Occurrence :=
  o.visibleBindings ++ (o.block?.map visibleBindings).getD []

/-- The occurrence is a declaration of `var` variables. -/
def isVar (o : Occurrence) : Bool :=
  o.node.kind == .variableDeclaration && o.node.text? "kind" == some "var"

theorem block?_eq_some_iff {o body : Occurrence} :
    o.block? = some body ↔
      o.node.kind.isFunction = true ∧ o.child? "body" = some body ∧
        body.node.kind = .blockStatement := by
  unfold block?
  split
  next hkind => rw [Option.filter_eq_some_iff, beq_iff_eq, and_iff_right hkind]
  next hkind => simp [hkind]

theorem mem_ownBindings_iff {o b : Occurrence} :
    b ∈ o.ownBindings ↔
      b ∈ o.visibleBindings ∨ ∃ body, o.block? = some body ∧ b ∈ body.visibleBindings := by
  rw [ownBindings, List.mem_append]
  cases o.block? <;> simp

end Occurrence

namespace Scope

open Occurrence

variable {t : Node}

/-- The occurrence is a declaration that binds the identifier. -/
structure Declared (t : Node) (d b : Occurrence) : Prop where
  met : d ∈ t.occurrences
  kind : d.node.kind.isDeclaration = true
  binds : b ∈ d.statementBindings

/-- The search down from the owner of the identifier passes its declaration by: this declares a `var` variable in
a static block, or it declares something else without standing in a list. -/
def Lost (t : Node) (b : Occurrence) : Prop :=
  ∃ d, Declared t d b ∧
    if d.isVar then
      ∃ a ∈ (t.ancestors d.path).takeWhile (!isFunctionScope ·.kind), a.kind = .staticBlock
    else ∃ a ∈ (t.ancestors d.path).head?, a.kind.isLone a.field = true

/-! ## Declarations and what they bind -/

namespace Declared

variable {d b : Occurrence}

/-- The two forms of a declaration. -/
theorem cases (h : Declared t d b) :
    (d.node.kind = .variableDeclaration ∧ b ∈ d.declared) ∨
      ((d.node.kind = .functionDeclaration ∨ d.node.kind = .classDeclaration) ∧
        d.child? "id" = some b) := by
  have hbinds := h.binds
  rw [statementBindings_eq] at hbinds
  rcases Kind.isDeclaration_iff.mp h.kind with hkind | hkind | hkind
  · rw [hkind] at hbinds
    exact .inl ⟨hkind, hbinds⟩
  · rw [hkind] at hbinds
    exact .inr ⟨.inl hkind, Option.mem_toList.mp hbinds⟩
  · rw [hkind] at hbinds
    exact .inr ⟨.inr hkind, Option.mem_toList.mp hbinds⟩

/-- What is outside the pattern around a declared identifier. -/
theorem outside_eq (ht : t.Regular) (h : Declared t d b) :
    (∃ (v : Occurrence) (i : Nat), d.node.kind = .variableDeclaration ∧
        v.node.kind = .variableDeclarator ∧ outside (t.ancestors b.path)
          = v.leaving ⟨"id", none⟩ :: d.leaving ⟨"declarations", some i⟩ :: t.ancestors d.path) ∨
      ((d.node.kind = .functionDeclaration ∨ d.node.kind = .classDeclaration) ∧
        t.ancestors b.path = d.leaving ⟨"id", none⟩ :: t.ancestors d.path ∧
        outside (t.ancestors b.path) = d.leaving ⟨"id", none⟩ :: t.ancestors d.path) := by
  rcases h.cases with ⟨hkind, hb⟩ | ⟨hkind, hb⟩
  · left
    obtain ⟨v, i, hv, houtside⟩ := outside_of_mem_declared ht h.met hkind hb
    exact ⟨v, i, hkind, hv, houtside⟩
  · right
    have habove := ancestors_of_child? (holds_of_mem_occurrences h.met) hb
    refine ⟨hkind, habove, ?_⟩
    rw [habove]
    apply outside_of_not_isPatternStep
    rcases hkind with hkind | hkind <;> simp [isPatternStep, hkind]

/-- The binder of what is declared is a declarator, or the declaration that it names. -/
theorem binder_field (ht : t.Regular) (h : Declared t d b) {binder : Ancestor} {above : List Ancestor}
    (houtside : outside (t.ancestors b.path) = binder :: above) : binder.field = "id" := by
  rcases h.outside_eq ht with ⟨v, i, -, -, heq⟩ | ⟨-, -, heq⟩ <;>
    · rw [houtside] at heq
      rw [(List.cons.inj heq).1]
      rfl

theorem isVariable_eq (ht : t.Regular) (h : Declared t d b) :
    isVariable (t.ancestors b.path) = d.isVar := by
  rcases h.outside_eq ht with ⟨v, i, hkind, hv, houtside⟩ | ⟨hkind, -, houtside⟩
  · simp [isVariable, houtside, isVar, hkind, hv]
  · cases habove : t.ancestors d.path with
    | nil => rcases hkind with hkind | hkind <;> simp [isVariable, houtside, habove, isVar, hkind]
    | cons a above =>
        rcases hkind with hkind | hkind <;> simp [isVariable, houtside, habove, isVar, hkind] <;> rfl

/-- An identifier is bound by one declaration only. -/
theorem ancestors_eq (ht : t.Regular) (h : Declared t d b) {d' : Occurrence} (h' : Declared t d' b) :
    t.ancestors d'.path = t.ancestors d.path := by
  rcases h.outside_eq ht with ⟨v, i, hkind, hv, houtside⟩ | ⟨hkind, -, houtside⟩ <;>
    rcases h'.outside_eq ht with ⟨v', i', hkind', hv', houtside'⟩ | ⟨hkind', -, houtside'⟩
  · rw [houtside] at houtside'
    exact (List.cons.inj (List.cons.inj houtside').2).2.symm
  · rw [houtside] at houtside'
    have hbinder := congrArg Ancestor.kind (List.cons.inj houtside').1
    rw [kind_leaving, kind_leaving, hv] at hbinder
    rcases hkind' with hkind' | hkind' <;> rw [hkind'] at hbinder <;> cases hbinder
  · rw [houtside] at houtside'
    have hbinder := congrArg Ancestor.kind (List.cons.inj houtside').1
    rw [kind_leaving, kind_leaving, hv'] at hbinder
    rcases hkind with hkind | hkind <;> rw [hkind] at hbinder <;> cases hbinder
  · rw [houtside] at houtside'
    exact (List.cons.inj houtside').2.symm

theorem isVar_eq (ht : t.Regular) (h : Declared t d b) {d' : Occurrence} (h' : Declared t d' b) :
    d'.isVar = d.isVar := by
  rw [← h.isVariable_eq ht, h'.isVariable_eq ht]

theorem lost_iff (ht : t.Regular) (h : Declared t d b) :
    Lost t b ↔
      if d.isVar then
        ∃ a ∈ (t.ancestors d.path).takeWhile (!isFunctionScope ·.kind), a.kind = .staticBlock
      else ∃ a ∈ (t.ancestors d.path).head?, a.kind.isLone a.field = true := by
  constructor
  · rintro ⟨d', h', hlost⟩
    rwa [h.ancestors_eq ht h', h.isVar_eq ht h'] at hlost
  · intro hlost
    exact ⟨d, h, hlost⟩

theorem classify?_eq (ht : t.Regular) (h : Declared t d b) :
    ∃ site, classify? (t.ancestors b.path)
      = (ownerOrRoot? (t.ancestors b.path) (!d.isVar) (t.ancestors d.path)).map (site, ·) := by
  rcases h.outside_eq ht with ⟨v, i, hkind, hv, houtside⟩ | ⟨hkind, habove, -⟩
  · refine ⟨.declarator, ?_⟩
    rw [classify?_of_declarator houtside hv rfl, node_leaving]
    simp [isVar, hkind, bne]
  · refine ⟨.declaration, ?_⟩
    have hlexical : d.isVar = false := by rcases hkind with hkind | hkind <;> simp [isVar, hkind]
    have hclassify : classify? (d.leaving ⟨"id", none⟩ :: t.ancestors d.path) = _ :=
      classify?_of_declaration hkind rfl
    rw [habove, hclassify, hlexical]
    rfl

theorem exists_parent (ht : t.Grammatical) (h : Declared t d b) : ∃ a, Parent t a d := by
  apply Scope.exists_parent ht h.met
  intro hprogram
  have hkind := h.kind
  rw [hprogram] at hkind
  cases hkind

end Declared

/-! ## Declarations from below -/

/-- The ways in which an identifier declares a binding that may be renamed. -/
theorem binder_of_classify? {l : List Ancestor} {site : BindingSite} {owner : Path}
    (h : classify? l = some (site, owner)) :
    ∃ binder above, outside l = binder :: above ∧
      ((binder.kind.isFunction = true ∧ binder.field = "params" ∧ owner = binder.path) ∨
        (binder.kind = .variableDeclarator ∧ binder.field = "id" ∧ above ≠ []) ∨
        ((binder.kind = .functionDeclaration ∨ binder.kind = .classDeclaration) ∧
          binder.field = "id" ∧ patternDepth l = 0)) := by
  unfold classify? at h
  simp only at h
  split at h
  · cases h
  next binder above houtside =>
    refine ⟨binder, above, houtside, ?_⟩
    split at h
    next hparams =>
      rw [Bool.and_eq_true, beq_iff_eq] at hparams
      cases h
      exact .inl ⟨hparams.1, hparams.2, rfl⟩
    · split at h
      next hkind hfield => exact .inr (.inl ⟨hkind, hfield, List.cons_ne_nil _ _⟩)
      next hkind hfield =>
        split at h
        next hdepth => exact .inr (.inr ⟨.inl hkind, hfield, beq_iff_eq.mp hdepth⟩)
        next => cases h
      next hkind hfield =>
        split at h
        next hdepth => exact .inr (.inr ⟨.inr hkind, hfield, beq_iff_eq.mp hdepth⟩)
        next => cases h
      next => cases h

/-- **What may be renamed is a parameter, or is bound by a declaration.** -/
theorem declared_of_classify? (ht : t.Grammatical) {b : Occurrence} (hb : b ∈ t.occurrences)
    (hkind : b.node.kind = .identifier) {site : BindingSite} {owner : Path}
    (h : classify? (t.ancestors b.path) = some (site, owner)) :
    (∃ f ∈ t.occurrences, f.node.kind.isFunction = true ∧ f.path = owner ∧
        ∃ p ∈ f.children "params", b ∈ p.bindings) ∨ ∃ d, Declared t d b := by
  have hself : b ∈ b.bindings := by
    rw [bindings_eq, if_pos hkind]
    exact List.mem_singleton_self b
  obtain ⟨root, hroot, hbound, hclimb⟩ := exists_root ht hb hself
  obtain ⟨binder, above, houtside, hbinder⟩ := binder_of_classify? h
  rcases hbinder with ⟨hfunction, hfield, rfl⟩ | ⟨hdeclarator, hfield, hne⟩ | ⟨hdeclaration, hfield, hdepth⟩
  · left
    obtain ⟨hparent, -⟩ := parent_of_ancestors hroot (hclimb ▸ houtside)
    have hlist : binder.kind.isListField binder.field = true := by
      rw [hfield]
      rcases Kind.isFunction_iff.mp hfunction with hkind | hkind | hkind <;> rw [hkind] <;> rfl
    exact ⟨binder.occurrence, hparent.met, hfunction, rfl, root, hfield ▸ hparent.mem_children ht hlist,
      hbound⟩
  · right
    obtain ⟨hparent, rfl⟩ := parent_of_ancestors hroot (hclimb ▸ houtside)
    have hid := hparent.child? ht (by rw [hdeclarator, hfield]; rfl)
    -- A declarator stands in a declaration of variables.
    obtain ⟨declaration, above, habove⟩ := List.exists_cons_of_ne_nil hne
    obtain ⟨hgrand, -⟩ := parent_of_ancestors (x := binder.occurrence) hparent.met habove
    have htakes := hgrand.takes ht (show binder.kind.isPlaced = true by rw [hdeclarator]; rfl)
    rw [show binder.occurrence.node.kind = .variableDeclarator from hdeclarator] at htakes
    obtain ⟨hdkind, hdfield⟩ := Kind.takes_variableDeclarator htakes
    have hmem := hgrand.mem_children ht (by rw [hdkind, hdfield]; rfl)
    have hdeclared : b ∈ declaration.occurrence.declared :=
      mem_declared_iff.mpr ⟨binder.occurrence, hdfield ▸ hmem, root, hfield ▸ hid, hbound⟩
    refine ⟨declaration.occurrence, hgrand.met, ?_, ?_⟩
    · rw [show declaration.occurrence.node.kind = .variableDeclaration from hdkind]
      rfl
    · rw [statementBindings_eq, show declaration.occurrence.node.kind = .variableDeclaration from hdkind]
      exact hdeclared
  · right
    have houtside : t.ancestors b.path = binder :: above := by
      rwa [outside, hdepth, List.drop_zero] at houtside
    obtain ⟨hparent, -⟩ := parent_of_ancestors hb houtside
    have hid : binder.occurrence.child? "id" = some b := by
      refine hfield ▸ hparent.child? ht ?_
      rw [hfield]
      rcases hdeclaration with hkind | hkind <;> rw [hkind] <;> rfl
    refine ⟨binder.occurrence, hparent.met, ?_, ?_⟩
    · show binder.kind.isDeclaration = true
      rcases hdeclaration with hkind | hkind <;> rw [hkind] <;> rfl
    · rw [statementBindings_eq]
      rcases hdeclaration with hkind | hkind <;>
        rw [show binder.occurrence.node.kind = _ from hkind] <;> exact Option.mem_toList.mpr hid

/-! ## Variables -/

/-- What is hoisted out of a statement is hoisted out of what is around it, up to the function or the program that
owns it, unless there is a static block on the way. -/
theorem mem_visibleBindings_or_staticBlock (ht : t.Grammatical) {x b : Occurrence}
    (hx : x ∈ t.occurrences) (hplaced : x.node.kind.isPlaced = true)
    (hbarrier : isHoistBarrier x.node.kind = false) (hprogram : x.node.kind ≠ .program)
    (hb : b ∈ x.hoisted) :
    (∃ a ∈ (t.ancestors x.path).takeWhile (!isFunctionScope ·.kind), a.kind = .staticBlock) ∨
      ∃ s ∈ t.occurrences, owner? false (t.ancestors x.path) = some s.path ∧ b ∈ s.visibleBindings := by
  induction hlength : x.path.length using Nat.strongRecOn generalizing x with
  | ind length ih =>
      obtain ⟨a, hparent⟩ := exists_parent ht hx hprogram
      have hhoisted : b ∈ a.occurrence.hoisted := by
        rw [hoisted_eq]
        refine List.mem_append_right _ (List.mem_flatMap.mpr ⟨x, hparent.mem_visited_occurrence, ?_⟩)
        rw [if_neg (by rw [hbarrier]; decide)]
        exact hb
      rw [hparent.ancestors_eq]
      -- The parent is a function, or is placed like the statement itself.
      rcases Kind.isPlaced_of_takes (hparent.takes ht hplaced) with ⟨hfunction, hfield, -⟩ | hclass |
        ⟨haplaced, hfunction, hclass⟩
      · right
        have hscope : isFunctionScope a.kind = true := by rw [isFunctionScope, hfunction]; rfl
        have hlist : a.kind.isListField a.field = false := by
          rw [hfield]
          rcases Kind.isFunction_iff.mp hfunction with hkind | hkind | hkind <;> rw [hkind] <;> rfl
        refine ⟨a.occurrence, hparent.met, ?_, ?_⟩
        · rw [owner?, hscope]
          rfl
        · exact mem_visibleBindings_iff.mpr (.hoisted hfunction (hfield ▸ hparent.child? ht hlist) hb)
      · have hstatic := Kind.takes_classBody (hclass ▸ hparent.takes ht hplaced)
        rw [hstatic] at hbarrier
        cases hbarrier
      · by_cases haprogram : a.kind = .program
        · right
          refine ⟨a.occurrence, hparent.met, ?_, mem_visibleBindings_iff.mpr (.global haprogram hhoisted)⟩
          rw [owner?, haprogram]
          rfl
        have hscope : isFunctionScope a.kind = false := by
          simp [isFunctionScope, hfunction, haprogram]
        rw [List.takeWhile_cons_of_pos (by rw [hscope]; rfl), owner?, hscope]
        by_cases hstatic : a.kind = .staticBlock
        · exact .inl ⟨a, List.mem_cons_self, hstatic⟩
        have habarrier : isHoistBarrier a.occurrence.node.kind = false := by
          show isHoistBarrier a.kind = false
          simp [isHoistBarrier, hfunction, hclass, hstatic]
        rcases ih _ (hlength ▸ hparent.length_lt) hparent.met haplaced habarrier haprogram hhoisted rfl
          with ⟨c, hc, hckind⟩ | hfound
        · exact .inl ⟨c, List.mem_cons_of_mem _ hc, hckind⟩
        · exact .inr hfound

/-! ## Lexical declarations -/

/-- A statement in a list is found by the scope that the list is, or by the function that it is the body of. -/
theorem exists_owner_of_list (ht : t.Grammatical) {a : Ancestor} (ha : a.occurrence ∈ t.occurrences)
    (hkind : a.kind.isStatementList = true) {b : Occurrence} (hb : b ∈ a.occurrence.visibleBindings) :
    ∃ s ∈ t.occurrences, owner? true (a :: t.ancestors a.path) = some s.path ∧ b ∈ s.ownBindings := by
  by_cases hscope : (isFunctionScope a.kind || isBlockScope a (t.ancestors a.path).head?) = true
  · refine ⟨a.occurrence, ha, ?_, List.mem_append_left _ hb⟩
    rw [owner?, Bool.true_and, hscope]
    rfl
  · -- Only the body of a function is a list without being a scope.
    have hblock : a.kind = .blockStatement ∧
        ((t.ancestors a.path).head?.any fun p => p.kind.isFunction && p.field == "body") = true := by
      rcases Kind.isStatementList_iff.mp hkind with hkind | hkind | hkind <;>
        simp_all [isFunctionScope, isBlockScope]
    obtain ⟨hblock, hany⟩ := hblock
    rw [Option.any_eq_true] at hany
    obtain ⟨p, hp, hbody⟩ := hany
    rw [Bool.and_eq_true, beq_iff_eq] at hbody
    obtain ⟨above, habove⟩ := List.head?_eq_some_iff.mp hp
    obtain ⟨hparent, rfl⟩ := parent_of_ancestors (x := a.occurrence) ha habove
    have hlist : p.kind.isListField p.field = false := by
      rw [hbody.2]
      rcases Kind.isFunction_iff.mp hbody.1 with hkind | hkind | hkind <;> rw [hkind] <;> rfl
    have hchild : p.occurrence.child? "body" = some a.occurrence := hbody.2 ▸ hparent.child? ht hlist
    refine ⟨p.occurrence, hparent.met, ?_, List.mem_append_right _ ?_⟩
    · have hpscope : isFunctionScope p.kind = true := by rw [isFunctionScope, hbody.1]; rfl
      rw [owner?, Bool.true_and, if_neg hscope, habove, owner?, hpscope]
      rfl
    · rw [block?_eq_some_iff.mpr ⟨hbody.1, hchild, hblock⟩]
      exact hb

/-- **What is declared in a list or in the head of a loop is enumerated by its owner.** -/
theorem exists_owner_of_not_isLone (ht : t.Grammatical) {d b : Occurrence} (h : Declared t d b)
    (hlone : ∀ a ∈ (t.ancestors d.path).head?, a.kind.isLone a.field = false) :
    ∃ s ∈ t.occurrences, owner? true (t.ancestors d.path) = some s.path ∧ b ∈ s.ownBindings := by
  obtain ⟨a, hparent⟩ := h.exists_parent ht
  have hlone := hlone a (by rw [hparent.ancestors_eq]; rfl)
  rw [hparent.ancestors_eq]
  have htakes := hparent.takes ht (Kind.isPlaced_of_isDeclaration h.kind)
  rcases Kind.places_of_isDeclaration h.kind htakes with ⟨hkind, hfield⟩ | ⟨hkind, hfield⟩ | hhead |
    hexport | hlone'
  · -- in a list of statements
    have hlist : a.kind.isListField a.field = true := by
      rw [hfield]
      rcases Kind.isStatementList_iff.mp hkind with hkind | hkind | hkind <;> rw [hkind] <;> rfl
    have hmem : d ∈ a.occurrence.children "body" := hfield ▸ hparent.mem_children ht hlist
    exact exists_owner_of_list ht hparent.met hkind
      (mem_visibleBindings_iff.mpr (.statement hkind hmem h.binds))
  · -- in a case of a switch
    have hmem := hparent.mem_children ht (by rw [hkind, hfield]; rfl)
    obtain ⟨p, hgrand⟩ := exists_parent ht hparent.met
      (show a.kind ≠ .program by rw [hkind]; decide)
    have hswitch := hgrand.takes ht (show a.kind.isPlaced = true by rw [hkind]; rfl)
    rw [show a.occurrence.node.kind = .switchCase from hkind] at hswitch
    obtain ⟨hpkind, hpfield⟩ := Kind.takes_switchCase hswitch
    have harm := hgrand.mem_children ht (by rw [hpkind, hpfield]; rfl)
    refine ⟨p.occurrence, hgrand.met, ?_, List.mem_append_left _ ?_⟩
    · rw [show t.ancestors a.path = _ from hgrand.ancestors_eq]
      simp [owner?, isFunctionScope, isBlockScope, Kind.isFunction, hkind, hpkind]
      rfl
    · exact mem_visibleBindings_iff.mpr (.arm hpkind (hpfield ▸ harm) (hfield ▸ hmem) h.binds)
  · -- in the head of a loop
    have hchild := hparent.child? ht (by
      rcases Kind.isHead_iff.mp hhead with ⟨hkind, hfield⟩ | ⟨hkind | hkind, hfield⟩ <;>
        rw [hkind, hfield] <;> rfl)
    refine ⟨a.occurrence, hparent.met, ?_, List.mem_append_left _ ?_⟩
    · rcases Kind.isHead_iff.mp hhead with ⟨hkind, -⟩ | ⟨hkind | hkind, -⟩ <;>
        simp [owner?, isFunctionScope, isBlockScope, Kind.isFunction, hkind] <;> rfl
    · exact mem_visibleBindings_iff.mpr (.head (Kind.isHead_iff.mp hhead) hchild h.binds)
  · -- exported
    obtain ⟨hkind, hfield⟩ := Kind.isExport_iff.mp hexport
    have hchild := hparent.child? ht (by
      rcases hkind with hkind | hkind <;> rw [hkind, hfield] <;> rfl)
    have hbinds : b ∈ a.occurrence.statementBindings := by
      rw [statementBindings_eq]
      rcases hkind with hkind | hkind <;>
        · rw [show a.occurrence.node.kind = _ from hkind]
          exact List.mem_flatMap.mpr ⟨d, Option.mem_toList.mpr (hfield ▸ hchild), h.binds⟩
    have hitem : a.kind.isModuleItem = true := by rcases hkind with hkind | hkind <;> rw [hkind] <;> rfl
    obtain ⟨p, hgrand⟩ := exists_parent ht hparent.met
      (show a.kind ≠ .program by rcases hkind with hkind | hkind <;> rw [hkind] <;> decide)
    have hpprogram := hgrand.takes ht
      (show a.kind.isPlaced = true by rcases hkind with hkind | hkind <;> rw [hkind] <;> rfl)
    obtain ⟨hpkind, hpfield⟩ := Kind.takes_isModuleItem hitem hpprogram
    have hmem := hgrand.mem_children ht (by rw [hpkind, hpfield]; rfl)
    refine ⟨p.occurrence, hgrand.met, ?_, List.mem_append_left _ ?_⟩
    · rw [show t.ancestors a.path = _ from hgrand.ancestors_eq]
      rcases hkind with hkind | hkind <;>
        simp [owner?, isFunctionScope, isBlockScope, Kind.isFunction, hkind, hpkind] <;> rfl
    · refine mem_visibleBindings_iff.mpr (.statement ?_ (hpfield ▸ hmem) hbinds)
      rw [show p.occurrence.node.kind = .program from hpkind]
      rfl
  · rw [hlone] at hlone'
    cases hlone'

/-! ## Back from what a scope shows -/

/-- A declared identifier is no name that is imported. -/
theorem Declared.isSome_classify? (ht : t.Regular) {d b : Occurrence} (h : Declared t d b) :
    (classify? (t.ancestors b.path)).isSome = true := by
  obtain ⟨site, hclassify⟩ := h.classify?_eq ht
  have hne : t.ancestors b.path ≠ [] := by
    intro hnil
    rcases h.outside_eq ht with ⟨v, i, -, -, houtside⟩ | ⟨-, -, houtside⟩ <;>
      · rw [hnil] at houtside
        cases houtside
  rw [hclassify, Option.isSome_map]
  exact isSome_ownerOrRoot? hne _ _

theorem not_declared_of_parameter (ht : t.Regular) {o p b d : Occurrence} (ho : t.Holds o)
    (hkind : o.node.kind.isFunction = true) (hp : p ∈ o.children "params") (hb : b ∈ p.bindings) :
    ¬ Declared t d b := by
  intro hd
  obtain ⟨i, habove⟩ := ancestors_of_mem_children ho hp
  have houtside := outside_of_pattern ((contains_of_mem_children hp).holds ho) habove
    (fun parent => not_isPatternStep_of_isFunction hkind) hb
  exact absurd (hd.binder_field ht houtside) (by simp)

/-- A declaration is the statement that binds for it, or is exported by that. -/
theorem Declared.wrapped (ht : t.Regular) {s d b : Occurrence} (h : Declared t d b)
    (hs : s ∈ t.occurrences) (hb : b ∈ s.statementBindings) :
    ∃ wrap : List Ancestor, (∀ e ∈ wrap, e.kind.isExport e.field = true) ∧
      t.ancestors d.path = wrap ++ t.ancestors s.path := by
  induction s using exported_induction with
  | step s ih =>
      have hholds := holds_of_mem_occurrences hs
      have hself : s.node.kind.isDeclaration = true →
          ∃ wrap : List Ancestor, (∀ e ∈ wrap, e.kind.isExport e.field = true) ∧
            t.ancestors d.path = wrap ++ t.ancestors s.path := by
        intro hkind
        exact ⟨[], by simp, (Declared.ancestors_eq ht ⟨hs, hkind, hb⟩ h).trans (List.nil_append _).symm⟩
      have hexport : s.node.kind = .exportNamedDeclaration ∨ s.node.kind = .exportDefaultDeclaration →
          b ∈ (s.child? "declaration").toList.flatMap statementBindings →
          ∃ wrap : List Ancestor, (∀ e ∈ wrap, e.kind.isExport e.field = true) ∧
            t.ancestors d.path = wrap ++ t.ancestors s.path := by
        intro hkind hb
        obtain ⟨x, hx, hb⟩ := List.mem_flatMap.mp hb
        have hx := Option.mem_toList.mp hx
        have hxmet := mem_occurrences_of_mem_below hs
          (mem_below_of_child? (by rcases hkind with hkind | hkind <;> rw [hkind] <;> decide) hx)
        obtain ⟨wrap, hwrap, heq⟩ := ih x hx hxmet hb
        refine ⟨wrap ++ [s.leaving ⟨"declaration", none⟩], ?_, ?_⟩
        · intro e he
          rcases List.mem_append.mp he with he | he
          · exact hwrap e he
          · rw [List.mem_singleton.mp he]
            exact Kind.isExport_iff.mpr ⟨hkind, rfl⟩
        · rw [heq, ancestors_of_child? hholds hx, List.append_assoc, List.singleton_append]
      rw [statementBindings_eq] at hb
      split at hb
      next hkind => exact hself (by rw [hkind]; rfl)
      next hkind => exact hself (by rw [hkind]; rfl)
      next hkind => exact hself (by rw [hkind]; rfl)
      next hkind => exact hexport (.inl hkind) hb
      next hkind => exact hexport (.inr hkind) hb
      next hkind =>
        exfalso
        obtain ⟨specifier, hspecifier, hb⟩ := List.mem_filterMap.mp hb
        have habove := ancestors_of_child? ((contains_of_mem_children hspecifier).holds hholds) hb
        have hnone : classify? (specifier.leaving ⟨"local", none⟩ :: t.ancestors specifier.path) = none :=
          classify?_of_specifier (ht.specifiers s hs hkind specifier hspecifier)
        have hsome := h.isSome_classify? ht
        rw [habove, hnone] at hsome
        cases hsome
      next => cases hb

/-- How a declaration stands below a node that shows what it binds. -/
inductive Stands (t : Node) (o d : Occurrence) : Prop where
  /-- in a list, or in the head of a loop, perhaps exported -/
  | listed {wrap : List Ancestor} {step : Step} (hwrap : ∀ e ∈ wrap, e.kind.isExport e.field = true)
      (hlone : o.node.kind.isLone step.field = false)
      (h : t.ancestors d.path = wrap ++ o.leaving step :: t.ancestors o.path)
  /-- in a case of a switch -/
  | arm {wrap above : List Ancestor} {a : Ancestor}
      (hwrap : ∀ e ∈ wrap, e.kind.isExport e.field = true) (hkind : o.node.kind = .switchStatement)
      (ha : a.kind = .switchCase) (h : t.ancestors d.path = wrap ++ a :: above)
  /-- anywhere but in a static block -/
  | hoisted (before : List Ancestor) {step : Step} (hvar : d.isVar = true)
      (hbefore : ∀ e ∈ before, e.kind ≠ .staticBlock)
      (h : t.ancestors d.path = before ++ o.leaving step :: t.ancestors o.path)
  /-- as the node itself -/
  | itself (h : o.path = d.path)

theorem stands_of_hoisted (ht : t.Grammatical) {o d b : Occurrence} (ho : o ∈ t.occurrences)
    (h : Declared t d b) (hb : b ∈ o.hoisted) :
    d.isVar = true ∧ (t.ancestors d.path = t.ancestors o.path ∨
      ∃ (before : List Ancestor) (step : Step), (∀ e ∈ before, e.kind ≠ .staticBlock) ∧
        t.ancestors d.path = before ++ o.leaving step :: t.ancestors o.path) := by
  obtain ⟨v, hv, hkind, hvar, hdeclared, hbetween⟩ := exists_of_mem_hoisted ho hb
  have hvDeclared : Declared t v b := by
    refine ⟨mem_occurrences_of_mem_below ho hv, by rw [hkind]; rfl, ?_⟩
    rw [statementBindings_eq, hkind]
    exact hdeclared
  have hancestors := hvDeclared.ancestors_eq ht.toRegular h
  refine ⟨?_, ?_⟩
  · rw [hvDeclared.isVar_eq ht.toRegular h]
    simp [isVar, hkind, hvar]
  · rcases hbetween with rfl | ⟨between, step, heq, hall⟩
    · exact .inl hancestors
    · refine .inr ⟨between, step, ?_, hancestors.trans heq⟩
      intro e he hstatic
      have hbarrier := (hall e he).1
      rw [hstatic] at hbarrier
      cases hbarrier

/-- **Inversion.** A node shows only what is declared where it looks. -/
theorem stands_of_shows (ht : t.Grammatical) {o d b : Occurrence} (ho : o ∈ t.occurrences)
    (hd : Declared t d b) (h : Shows o b) : Stands t o d := by
  have hholds := holds_of_mem_occurrences ho
  have hregular := ht.toRegular
  cases h with
  | parameter hkind hp hb => exact absurd hd (not_declared_of_parameter hregular hholds hkind hp hb)
  | @hoisted body hkind hbody hb =>
      have hbodymet := mem_occurrences_of_mem_below ho
        (mem_below_of_child? (body_mem_fields hkind) hbody)
      have habove := ancestors_of_child? hholds hbody
      obtain ⟨hvar, heq | ⟨before, step, hbefore, heq⟩⟩ := stands_of_hoisted ht hbodymet hd hb
      · exact .hoisted [] hvar (by simp) (heq.trans habove)
      · rw [habove, ← List.singleton_append, ← List.append_assoc] at heq
        refine .hoisted _ hvar ?_ heq
        · intro e he
          rcases List.mem_append.mp he with he | he
          · exact hbefore e he
          · -- Static blocks stand in classes only.
            rw [List.mem_singleton.mp he, kind_leaving]
            intro hstatic
            have htakes := (parent_of_ancestors hbodymet habove).1.takes ht (by rw [hstatic]; rfl)
            rw [hstatic, kind_leaving] at htakes
            rcases Kind.isPlaced_of_takes htakes with ⟨-, -, hblock⟩ | hclass | ⟨-, hfunction, -⟩
            · cases hblock
            · rw [hclass] at hkind
              cases hkind
            · rw [hkind] at hfunction
              cases hfunction
  | ownName hkind hb =>
      have habove := ancestors_of_child? hholds hb
      rcases hd.outside_eq hregular with ⟨v, i, -, hv, houtside⟩ | ⟨-, hsame, -⟩
      · exfalso
        have hpattern : isPatternStep (o.leaving ⟨"id", none⟩) (t.ancestors o.path).head? = false := by
          rcases hkind with hkind | hkind
          · exact not_isPatternStep_of_isFunction hkind
          · rcases Kind.isClass_iff.mp hkind with hkind | hkind <;> simp [isPatternStep, hkind]
        rw [habove, outside_of_not_isPatternStep hpattern] at houtside
        have hbinder := congrArg Ancestor.kind (List.cons.inj houtside).1
        rw [kind_leaving, kind_leaving, hv] at hbinder
        simp [hbinder, Kind.isFunction, Kind.isClass] at hkind
      · rw [habove] at hsame
        exact .itself (congrArg Ancestor.path (List.cons.inj hsame).1)
  | @statement s hkind hs hb =>
      have hsmet := mem_occurrences_of_mem_below ho
        (mem_below_of_mem_children (body_mem_fields_of_isStatementList hkind) hs)
      obtain ⟨i, habove⟩ := ancestors_of_mem_children hholds hs
      obtain ⟨wrap, hwrap, heq⟩ := hd.wrapped hregular hsmet hb
      refine .listed hwrap ?_ (habove ▸ heq)
      rcases Kind.isStatementList_iff.mp hkind with hkind | hkind | hkind <;> rw [hkind] <;> rfl
  | global hkind hb =>
      obtain ⟨hvar, heq | ⟨before, step, hbefore, heq⟩⟩ := stands_of_hoisted ht ho hd hb
      · -- The declaration would be the program.
        exfalso
        obtain ⟨a, hparent⟩ := hd.exists_parent ht
        rw [hparent.ancestors_eq, ht.programs o ho hkind] at heq
        cases heq
      · exact .hoisted before hvar hbefore heq
  | @arm arm s hkind harm hs hb =>
      have harmkind : arm.node.kind = .switchCase := by simpa using ht.cases o ho hkind arm harm
      have harmmet := mem_occurrences_of_mem_below ho
        (mem_below_of_mem_children (by rw [hkind]; decide) harm)
      have hsmet := mem_occurrences_of_mem_below harmmet
        (mem_below_of_mem_children (by rw [harmkind]; decide) hs)
      obtain ⟨i, habove⟩ := ancestors_of_mem_children (holds_of_mem_occurrences harmmet) hs
      obtain ⟨wrap, hwrap, heq⟩ := hd.wrapped hregular hsmet hb
      exact .arm (a := arm.leaving ⟨"consequent", some i⟩) hwrap hkind harmkind (habove ▸ heq)
  | @head field s hkind hs hb =>
      have hfield : field ∈ o.node.kind.fields := by
        rcases hkind with ⟨hkind, rfl⟩ | ⟨hkind | hkind, rfl⟩ <;> rw [hkind] <;> decide
      have hsmet := mem_occurrences_of_mem_below ho (mem_below_of_child? hfield hs)
      have habove := ancestors_of_child? hholds hs
      obtain ⟨wrap, hwrap, heq⟩ := hd.wrapped hregular hsmet hb
      refine .listed hwrap ?_ (habove ▸ heq)
      rcases hkind with ⟨hkind, rfl⟩ | ⟨hkind | hkind, rfl⟩ <;> rw [hkind] <;> rfl
  | caught hkind hp hb =>
      exact absurd (hd.binder_field hregular (outside_of_caught hholds hkind hp hb)) (by simp)

/-- The head of a list that starts with exports is an export, or what follows them. -/
theorem head?_append_cons {wrap above : List Ancestor} {a e : Ancestor}
    (he : e ∈ (wrap ++ a :: above).head?) : e ∈ wrap ∨ e = a := by
  cases wrap with
  | nil => exact .inr (Option.some.inj he).symm
  | cons first wrap =>
      left
      rw [← Option.some.inj he]
      exact List.mem_cons_self

theorem mem_of_mem_takeWhile {p : Ancestor → Bool} {before above : List Ancestor} {a e : Ancestor}
    (ha : p a = false) (he : e ∈ (before ++ a :: above).takeWhile p) : e ∈ before := by
  induction before with
  | nil =>
      rw [List.nil_append, List.takeWhile_cons_of_neg (by rw [ha]; decide)] at he
      cases he
  | cons first before ih =>
      rw [List.cons_append, List.takeWhile_cons] at he
      split at he
      · rcases List.mem_cons.mp he with rfl | he
        · exact List.mem_cons_self
        · exact List.mem_cons_of_mem _ (ih he)
      · cases he

theorem isLone_of_isExport {kind : Kind} {field : String} (h : kind.isExport field = true) :
    kind.isLone field = false ∧ kind ≠ .staticBlock := by
  obtain ⟨rfl | rfl, rfl⟩ := Kind.isExport_iff.mp h <;> decide

theorem Stands.not_isLone {o d : Occurrence} (h : Stands t o d) (hvar : d.isVar = false)
    (hne : o.path ≠ d.path) : ∀ a ∈ (t.ancestors d.path).head?, a.kind.isLone a.field = false := by
  intro e he
  cases h with
  | listed hwrap hlone heq =>
      rw [heq] at he
      rcases head?_append_cons he with he | rfl
      · exact (isLone_of_isExport (hwrap e he)).1
      · exact hlone
  | arm hwrap _ ha heq =>
      rw [heq] at he
      rcases head?_append_cons he with he | rfl
      · exact (isLone_of_isExport (hwrap e he)).1
      · rw [ha]
        rfl
  | hoisted _ hvar' =>
      rw [hvar] at hvar'
      cases hvar'
  | itself heq => exact absurd heq hne

/-- But for the cases of a switch, no static block stands between a declaration and the node that shows what it
binds. -/
theorem Stands.exists_before {o d : Occurrence} (h : Stands t o d) (hne : o.path ≠ d.path)
    (hkind : o.node.kind ≠ .switchStatement) :
    ∃ (before : List Ancestor) (step : Step), (∀ e ∈ before, e.kind ≠ .staticBlock) ∧
      t.ancestors d.path = before ++ o.leaving step :: t.ancestors o.path := by
  cases h with
  | @listed wrap step hwrap _ heq =>
      exact ⟨wrap, step, fun e he => (isLone_of_isExport (hwrap e he)).2, heq⟩
  | arm _ hswitch => exact absurd hswitch hkind
  | @hoisted before step _ hbefore heq => exact ⟨before, step, hbefore, heq⟩
  | itself heq => exact absurd heq hne

/-- What a scope enumerates is declared where the scope looks, or where the block looks that is the body of it. -/
theorem stands_of_mem_ownBindings (ht : t.Grammatical) {s d b : Occurrence} (hs : s ∈ t.occurrences)
    (hd : Declared t d b) (hb : b ∈ s.ownBindings) :
    Stands t s d ∨
      ∃ body, s.block? = some body ∧ body.path ≠ d.path ∧ Stands t body d := by
  rcases mem_ownBindings_iff.mp hb with hb | ⟨body, hbody, hb⟩
  · exact .inl (stands_of_shows ht hs hd (shows_of_mem_visibleBindings hb))
  · right
    obtain ⟨hfunction, hchild, hblock⟩ := block?_eq_some_iff.mp hbody
    have hbodymet := mem_occurrences_of_mem_below hs
      (mem_below_of_child? (body_mem_fields hfunction) hchild)
    refine ⟨body, hbody, ?_, stands_of_shows ht hbodymet hd (shows_of_mem_visibleBindings hb)⟩
    -- A block is no declaration.
    intro heq
    have hkind := hd.kind
    have hmet := mem_occurrences_iff.mp hd.met
    rw [← heq] at hmet
    rw [← eq_of_met? hmet (holds_of_mem_occurrences hbodymet), hblock] at hkind
    cases hkind

/-- A variable that a function or a program enumerates is in no static block. -/
theorem not_staticBlock_of_mem_ownBindings (ht : t.Grammatical) {s d b : Occurrence}
    (hs : s ∈ t.occurrences) (hd : Declared t d b) (hne : s.path ≠ d.path)
    (hscope : isFunctionScope s.node.kind = true) (hb : b ∈ s.ownBindings) :
    ∀ a ∈ (t.ancestors d.path).takeWhile (!isFunctionScope ·.kind), a.kind ≠ .staticBlock := by
  intro e he
  have hstop : ∀ step, (!isFunctionScope (s.leaving step).kind) = false := by
    intro step
    rw [kind_leaving, hscope]
    rfl
  rcases stands_of_mem_ownBindings ht hs hd hb with hstands | ⟨body, hbody, hbodyne, hstands⟩
  · have hswitch : s.node.kind ≠ .switchStatement := by
      intro hkind
      rw [hkind] at hscope
      cases hscope
    obtain ⟨before, step, hbefore, heq⟩ := hstands.exists_before hne hswitch
    rw [heq] at he
    exact hbefore e (mem_of_mem_takeWhile (hstop step) he)
  · obtain ⟨-, hchild, hblock⟩ := block?_eq_some_iff.mp hbody
    obtain ⟨before, step, hbefore, heq⟩ := hstands.exists_before hbodyne (by rw [hblock]; decide)
    -- The block comes last before the function.
    rw [heq, ancestors_of_child? (holds_of_mem_occurrences hs) hchild, ← List.singleton_append,
      ← List.append_assoc] at he
    rcases List.mem_append.mp (mem_of_mem_takeWhile (hstop _) he) with he | he
    · exact hbefore e he
    · rw [List.mem_singleton.mp he, kind_leaving, hblock]
      decide

theorem not_isLone_of_mem_ownBindings (ht : t.Grammatical) {s d b : Occurrence}
    (hs : s ∈ t.occurrences) (hd : Declared t d b) (hne : s.path ≠ d.path) (hvar : d.isVar = false)
    (hb : b ∈ s.ownBindings) :
    ∀ a ∈ (t.ancestors d.path).head?, a.kind.isLone a.field = false := by
  rcases stands_of_mem_ownBindings ht hs hd hb with hstands | ⟨body, -, hbodyne, hstands⟩
  · exact hstands.not_isLone hvar hne
  · exact hstands.not_isLone hvar hbodyne

/-! ## The owner of a declaration -/

theorem exists_of_owner? {lexical : Bool} {l : List Ancestor} {p : Path} (h : owner? lexical l = some p) :
    ∃ a ∈ l, a.path = p ∧ (lexical = false → isFunctionScope a.kind = true) := by
  induction l with
  | nil => cases h
  | cons a above ih =>
      rw [owner?] at h
      split at h
      next hscope =>
        refine ⟨a, List.mem_cons_self, Option.some.inj h, ?_⟩
        rintro rfl
        simpa using hscope
      next =>
        obtain ⟨c, hc, hpath, hscope⟩ := ih h
        exact ⟨c, List.mem_cons_of_mem _ hc, hpath, hscope⟩

theorem isSome_owner? (lexical : Bool) {l : List Ancestor} {a : Ancestor} (ha : a ∈ l)
    (hscope : isFunctionScope a.kind = true) : (owner? lexical l).isSome = true := by
  induction l with
  | nil => cases ha
  | cons c above ih =>
      rw [owner?]
      split
      · rfl
      next hc =>
        rcases List.mem_cons.mp ha with rfl | ha
        · rw [hscope] at hc
          exact absurd rfl hc
        · exact ih ha

/-- The root is among the ancestors of all that is not the root. -/
theorem exists_program (ht : t.Grammatical) {x : Occurrence} (hx : x ∈ t.occurrences) {a : Ancestor}
    (hparent : Parent t a x) : ∃ r ∈ t.ancestors x.path, r.kind = .program := by
  have hat := at?_of_met? (mem_occurrences_iff.mp hx)
  have hroot : [] ∈ (t.ancestors x.path).map (·.path) := by
    rw [mem_map_path_ancestors_iff hat, hparent.path]
    exact ⟨List.nil_prefix, (List.append_ne_nil_of_right_ne_nil _ (List.cons_ne_nil _ _)).symm⟩
  obtain ⟨r, hr, hpath⟩ := List.mem_map.mp hroot
  refine ⟨r, hr, ?_⟩
  have hnode := at?_of_mem_ancestors hr
  rw [hpath, at?_nil, Option.some.injEq] at hnode
  rw [Ancestor.kind, ← hnode]
  exact ht.root

/-- The owner of what is declared stands above the declaration. -/
theorem Declared.exists_owner (ht : t.Grammatical) {d b : Occurrence} (h : Declared t d b)
    {site : BindingSite} {owner : Path}
    (hclassify : classify? (t.ancestors b.path) = some (site, owner)) :
    ∃ s ∈ t.occurrences, s.path = owner ∧ s.path ≠ d.path ∧
      owner? (!d.isVar) (t.ancestors d.path) = some s.path ∧
      (d.isVar = true → isFunctionScope s.node.kind = true) := by
  obtain ⟨a, hparent⟩ := h.exists_parent ht
  obtain ⟨r, hr, hprogram⟩ := exists_program ht h.met hparent
  obtain ⟨path, hpath⟩ := Option.isSome_iff_exists.mp
    (isSome_owner? (!d.isVar) hr (by rw [hprogram]; rfl))
  obtain ⟨site', heq⟩ := h.classify?_eq ht.toRegular
  rw [heq, ownerOrRoot?, hpath, Option.some_or, Option.map_some, Option.some.injEq, Prod.mk.injEq]
    at hclassify
  obtain ⟨-, rfl⟩ := hclassify
  obtain ⟨c, hc, rfl, hscope⟩ := exists_of_owner? hpath
  have hmet := mem_occurrences_iff.mp h.met
  refine ⟨c.occurrence, mem_occurrences_of_mem_ancestors hmet hc, rfl, ?_, hpath, ?_⟩
  · exact ((mem_map_path_ancestors_iff (at?_of_met? hmet)).mp (List.mem_map_of_mem hc)).2
  · intro hvar
    exact hscope (by rw [hvar]; rfl)

theorem eq_of_path_eq {x y : Occurrence} (hx : x ∈ t.occurrences) (hy : y ∈ t.occurrences)
    (h : x.path = y.path) : x = y := by
  obtain ⟨path, node⟩ := x
  obtain ⟨path', node'⟩ := y
  subst h
  rw [mem_occurrences_iff] at hx hy
  exact congrArg (Occurrence.mk path) (Option.some.inj (hx.symm.trans hy))

theorem Declared.mem_ownBindings_iff (ht : t.Grammatical) {d b s : Occurrence} (h : Declared t d b)
    (hs : s ∈ t.occurrences) (hne : s.path ≠ d.path)
    (howner : owner? (!d.isVar) (t.ancestors d.path) = some s.path)
    (hscope : d.isVar = true → isFunctionScope s.node.kind = true) :
    b ∈ s.ownBindings ↔ ¬ Lost t b := by
  rw [h.lost_iff ht.toRegular]
  cases hvar : d.isVar with
  | true =>
      rw [if_pos rfl, not_exists]
      constructor
      · rintro hb a ⟨ha, hstatic⟩
        exact not_staticBlock_of_mem_ownBindings ht hs h hne (hscope hvar) hb a ha hstatic
      · intro hnone
        have hkind : d.node.kind = .variableDeclaration := by
          rw [isVar, Bool.and_eq_true, beq_iff_eq] at hvar
          exact hvar.1
        have hhoisted : b ∈ d.hoisted := by
          have hbinds := h.binds
          rw [statementBindings_eq, hkind] at hbinds
          rw [isVar, Bool.and_eq_true, beq_iff_eq, beq_iff_eq] at hvar
          rw [hoisted_eq, if_pos hvar]
          exact List.mem_append_left _ hbinds
        rcases mem_visibleBindings_or_staticBlock ht h.met (by rw [hkind]; rfl) (by rw [hkind]; rfl)
          (by rw [hkind]; decide) hhoisted with ⟨a, ha, hstatic⟩ | ⟨s', hs', howner', hb⟩
        · exact absurd ⟨ha, hstatic⟩ (hnone a)
        · rw [hvar, Bool.not_true, howner', Option.some.injEq] at howner
          rw [← eq_of_path_eq hs' hs howner]
          exact List.mem_append_left _ hb
  | false =>
      rw [if_neg Bool.false_ne_true, not_exists]
      constructor
      · rintro hb a ⟨ha, hlone⟩
        rw [not_isLone_of_mem_ownBindings ht hs h hne hvar hb a ha] at hlone
        cases hlone
      · intro hnone
        have hlone : ∀ a ∈ (t.ancestors d.path).head?, a.kind.isLone a.field = false := by
          intro a ha
          rw [← Bool.not_eq_true]
          exact fun hlone => hnone a ⟨ha, hlone⟩
        obtain ⟨s', hs', howner', hb⟩ := exists_owner_of_not_isLone ht h hlone
        rw [hvar, Bool.not_false, howner', Option.some.injEq] at howner
        rw [← eq_of_path_eq hs' hs howner]
        exact hb

/-! ## The result -/

theorem visibleBindings_subset_visible {o r : Occurrence} (ho : o ∈ t.occurrences)
    (hr : r ∈ t.occurrences) (hpre : o.path <+: r.path) (hne : o.path ≠ r.path) {b : Occurrence}
    (hb : b ∈ o.visibleBindings) : b ∈ visible (t.ancestors r.path) := by
  have hat := at?_of_met? (mem_occurrences_iff.mp hr)
  obtain ⟨a, ha, hpath⟩ := List.mem_map.mp ((mem_map_path_ancestors_iff hat).mpr ⟨hpre, hne⟩)
  have hmet := mem_occurrences_of_mem_ancestors (mem_occurrences_iff.mp hr) ha
  refine List.mem_flatMap.mpr ⟨a, ha, ?_⟩
  rw [eq_of_path_eq hmet ho hpath]
  exact hb

/-- The reference stands inside the scope: below the body of a function, or below any other scope. -/
def Inside (s r : Occurrence) : Prop :=
  (s.block?.getD s).path <+: r.path ∧ (s.block?.getD s).path ≠ r.path

theorem mem_visible_of_inside {s r b : Occurrence} (hs : s ∈ t.occurrences) (hr : r ∈ t.occurrences)
    (h : Inside s r) (hb : b ∈ s.ownBindings) : b ∈ visible (t.ancestors r.path) := by
  obtain ⟨hpre, hne⟩ := h
  cases hbody : s.block? with
  | none =>
      rw [hbody] at hpre hne
      rcases mem_ownBindings_iff.mp hb with hb | ⟨body, hsome, -⟩
      · exact visibleBindings_subset_visible hs hr hpre hne hb
      · rw [hbody] at hsome
        cases hsome
  | some body =>
      rw [hbody] at hpre hne
      obtain ⟨hfunction, hchild, -⟩ := block?_eq_some_iff.mp hbody
      rcases mem_ownBindings_iff.mp hb with hb | ⟨body', hsome, hb⟩
      · have habove := (contains_of_child? hchild).isPrefixOf
        refine visibleBindings_subset_visible hs hr (habove.trans hpre) ?_ hb
        intro heq
        rw [← heq] at hpre hne
        exact hne (hpre.eq_of_length_le habove.length_le)
      · rw [hbody] at hsome
        cases hsome
        have hbodymet := mem_occurrences_of_mem_below hs
          (mem_below_of_child? (body_mem_fields hfunction) hchild)
        exact visibleBindings_subset_visible hbodymet hr hpre hne hb

/-- **Owners and enumeration.** For an identifier that declares a binding that may be renamed, the scope that owns
the binding stands in the tree. It enumerates the binding iff the binding is not lost, and then the
binding is visible from everything inside the scope. -/
theorem owner_enumerates_iff (ht : t.Grammatical) {b : Occurrence} (hb : b ∈ t.occurrences)
    (hkind : b.node.kind = .identifier) {site : BindingSite} {owner : Path}
    (hclassify : classify? (t.ancestors b.path) = some (site, owner)) :
    ∃ s ∈ t.occurrences, s.path = owner ∧ (b ∈ s.ownBindings ↔ ¬ Lost t b) ∧
      (¬ Lost t b → ∀ r ∈ t.occurrences, Inside s r → b ∈ visible (t.ancestors r.path)) := by
  have hexists : ∃ s ∈ t.occurrences, s.path = owner ∧ (b ∈ s.ownBindings ↔ ¬ Lost t b) := by
    rcases declared_of_classify? ht hb hkind hclassify with ⟨f, hf, hfunction, hpath, p, hp, hbound⟩ |
      ⟨d, hd⟩
    · -- No declaration binds a parameter.
      have hlost : ¬ Lost t b := by
        rintro ⟨d, hd, -⟩
        exact not_declared_of_parameter ht.toRegular (holds_of_mem_occurrences hf) hfunction hp hbound hd
      have hmem : b ∈ f.ownBindings :=
        List.mem_append_left _ (mem_visibleBindings_iff.mpr (.parameter hfunction hp hbound))
      exact ⟨f, hf, hpath, iff_of_true hmem hlost⟩
    · obtain ⟨s, hs, hpath, hne, howner, hscope⟩ := hd.exists_owner ht hclassify
      exact ⟨s, hs, hpath, hd.mem_ownBindings_iff ht hs hne howner hscope⟩
  obtain ⟨s, hs, hpath, hiff⟩ := hexists
  refine ⟨s, hs, hpath, hiff, ?_⟩
  intro hlost r hr hinside
  exact mem_visible_of_inside hs hr hinside (hiff.mpr hlost)

/-- `l: function f() {} f();` -/
def labeledFunction : Node :=
  ⟨.program, [("body", .list
    [some ⟨.labeledStatement, [("label", .child (Expression.identifier "l")),
      ("body", .child ⟨.functionDeclaration, [("id", .child (Expression.identifier "f")),
        ("params", .list []), ("body", .child ⟨.blockStatement, [("body", .list [])]⟩)]⟩)]⟩,
     some ⟨.expressionStatement, [("expression", .child ⟨.callExpression,
      [("callee", .child (Expression.identifier "f")), ("arguments", .list [])]⟩)]⟩])]⟩

/-- The name of a labeled function is owned by the program, which does not enumerate it: the call that follows
is not resolved. -/
theorem owner_enumerates_iff_labeledFunction :
    labeledFunction.Grammatical ∧
      classify? (labeledFunction.ancestors [⟨"body", some 0⟩, ⟨"body", none⟩, ⟨"id", none⟩])
        = some (.declaration, []) ∧
      (∃ s ∈ labeledFunction.occurrences, s.path = [] ∧
        ⟨[⟨"body", some 0⟩, ⟨"body", none⟩, ⟨"id", none⟩], Expression.identifier "f"⟩
          ∉ s.ownBindings) ∧
      resolve (labeledFunction.ancestors
        [⟨"body", some 1⟩, ⟨"expression", none⟩, ⟨"callee", none⟩]) "f" [] = .unresolved := by
  have hgrammatical : labeledFunction.Grammatical := by decide +kernel
  have hclassify : classify? (labeledFunction.ancestors
      [⟨"body", some 0⟩, ⟨"body", none⟩, ⟨"id", none⟩]) = some (.declaration, []) := by decide +kernel
  have hmet : (⟨[⟨"body", some 0⟩, ⟨"body", none⟩, ⟨"id", none⟩], Expression.identifier "f"⟩ :
      Occurrence) ∈ labeledFunction.occurrences := mem_occurrences_iff.mpr rfl
  have hlost : Lost labeledFunction
      ⟨[⟨"body", some 0⟩, ⟨"body", none⟩, ⟨"id", none⟩], Expression.identifier "f"⟩ := by
    refine ⟨⟨[⟨"body", some 0⟩, ⟨"body", none⟩], _⟩, ⟨mem_occurrences_iff.mpr rfl, rfl, ?_⟩, ?_⟩
    · rw [statementBindings_eq]
      exact List.mem_singleton_self _
    · exact ⟨_, rfl, rfl⟩
  obtain ⟨s, hs, hpath, hiff, -⟩ := owner_enumerates_iff hgrammatical hmet rfl hclassify
  exact ⟨hgrammatical, hclassify, ⟨s, hs, hpath, fun hmem => hiff.mp hmem hlost⟩, by decide +kernel⟩

end Scope

end Minifier
