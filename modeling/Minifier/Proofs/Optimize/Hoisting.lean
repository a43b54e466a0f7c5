import Minifier.Proofs.Optimize.Reduction
import Minifier.Proofs.Scope.Enumeration

/-!
# Variables hoisted out of pruned blocks

A `var` variable belongs to the function around it, whether or not its declaration is reached. Pruning
the statements of a block that follow a return keeps the declarations that stand in the block itself and
drops every other statement, with the declarations inside it.

* Which names are hoisted out of a tree does not depend on where the tree stands (`names_hoisted`), and
  is read off one level at a time (`hoistedNames_eq`).
* `mem_hoistedNames_prune_iff` tells for each name whether it is still hoisted out of a pruned block.
* **Main result** (`prune_keeps_hoisted_iff`). Nothing is added, and nothing is lost iff each name hoisted
  out of a statement that is never reached outlasts the pruning (`Outlasts`).
-/

namespace Minifier

open Node

namespace Occurrence

/-! ## Moving a tree -/

/-- The occurrence as a part of a greater tree, below a position of that. -/
def under (p : Path) (o : Occurrence) : Occurrence := ⟨p ++ o.path, o.node⟩

variable (p : Path) (o : Occurrence)

@[simp] theorem node_under : (o.under p).node = o.node := rfl

theorem along_under (edge : Step × Node) : (o.under p).along edge = (o.along edge).under p := by
  simp [along, under]

theorem child?_under (field : String) :
    (o.under p).child? field = (o.child? field).map (under p) := by
  simp only [child?, node_under, along_under, Option.map_map, Function.comp_def]

theorem children_under (field : String) :
    (o.under p).children field = (o.children field).map (under p) := by
  simp only [children, node_under, along_under, List.map_filterMap, Option.map_map,
    Function.comp_def]

theorem visited_under : (o.under p).visited = o.visited.map (under p) := by
  rw [visited, visited, List.map_map]
  exact List.map_congr_left fun edge _ => along_under p o edge

theorem patternParts_under : (o.under p).patternParts = o.patternParts.map (under p) := by
  unfold patternParts
  rw [node_under]
  split
  · rw [children_under, List.flatMap_map, List.map_flatMap]
    refine List.flatMap_congr fun property _ => ?_
    rw [node_under, child?_under, Option.toList_map]
    split <;> rfl
  · exact children_under p o _
  · rw [child?_under, Option.toList_map]
  · rw [child?_under, Option.toList_map]
  · rfl

theorem bindings_under : (o.under p).bindings = o.bindings.map (under p) := by
  induction o using bindings_induction with
  | step o ih =>
      rw [bindings_eq, bindings_eq o, node_under, patternParts_under]
      split
      · rfl
      · rw [List.flatMap_map, List.map_flatMap]
        exact List.flatMap_congr ih

theorem declared_under : (o.under p).declared = o.declared.map (under p) := by
  unfold declared
  rw [children_under, List.flatMap_map, List.map_flatMap]
  refine List.flatMap_congr fun d _ => ?_
  rw [child?_under, Option.map_map]
  cases d.child? "id" with
  | none => rfl
  | some root => exact bindings_under p root

theorem hoisted_under : (o.under p).hoisted = o.hoisted.map (under p) := by
  induction o using visited_induction with
  | step o ih =>
      rw [hoisted_eq, hoisted_eq o, node_under, visited_under, List.map_append]
      congr 1
      · rw [declared_under]
        split <;> rfl
      · rw [List.flatMap_map, List.map_flatMap]
        refine List.flatMap_congr fun child hchild => ?_
        rw [node_under, ih child hchild]
        split <;> rfl

theorem under_root : under o.path ⟨[], o.node⟩ = o := by
  simp [under]

theorem map_node_children (field : String) :
    (o.children field).map (·.node) = o.node.children field := by
  have hslots : ∀ slots : List (Option Node),
      slots.zipIdx.filterMap (fun entry => entry.1) = slots.filterMap id := by
    intro slots
    rw [← List.zipIdx_map_fst 0 slots, List.filterMap_map]
    simp
  simp [children, Node.children, List.map_filterMap, along, hslots, Function.comp_def]

theorem map_node_child? (field : String) : (o.child? field).map (·.node) = o.node.child? field := by
  simp [child?, along, Function.comp_def]

/-! ## Names -/

/-- The names of identifiers. -/
def names (l : List Occurrence) : List String := l.filterMap (·.node.name?)

theorem names_append (l l' : List Occurrence) : names (l ++ l') = names l ++ names l' :=
  List.filterMap_append

theorem names_flatMap (l : List Occurrence) (f : Occurrence → List Occurrence) :
    names (l.flatMap f) = l.flatMap fun x => names (f x) := by
  simp [names, List.filterMap_flatMap]

theorem names_under (l : List Occurrence) : names (l.map (under p)) = names l := by
  simp [names, List.filterMap_map, Function.comp_def]

end Occurrence

namespace Node

open Occurrence

variable {n d : Node} {name : String}

/-- The names that a pattern binds. -/
def boundNames (n : Node) : List String := names (bindings ⟨[], n⟩)

/-- The names that a declaration of variables declares. -/
def declaredNames (n : Node) : List String := names (declared ⟨[], n⟩)

/-- The names of the `var` variables hoisted out of a tree. -/
def hoistedNames (n : Node) : List String := names (hoisted ⟨[], n⟩)

/-- The names hoisted out of a tree that stands below another. -/
def hoistedOut (n : Node) : List String :=
  if isHoistBarrier n.kind then [] else n.hoistedNames

/-- The names bound are the same wherever the pattern stands. -/
theorem names_bindings (o : Occurrence) : names o.bindings = o.node.boundNames := by
  rw [← under_root o, bindings_under, names_under]
  rfl

/-- The names hoisted are the same wherever the tree stands. -/
theorem names_hoisted (o : Occurrence) : names o.hoisted = o.node.hoistedNames := by
  rw [← under_root o, hoisted_under, names_under]
  rfl

/-- Each declarator declares what its pattern binds. -/
theorem declaredNames_eq (n : Node) :
    n.declaredNames =
      (n.children "declarations").flatMap fun d => ((d.child? "id").map boundNames).getD [] := by
  rw [declaredNames, declared, names_flatMap, ← map_node_children ⟨[], n⟩, List.flatMap_map]
  refine List.flatMap_congr fun d _ => ?_
  rw [← map_node_child? d]
  cases d.child? "id" with
  | none => rfl
  | some root => exact names_bindings root

/-- The nodes one step down through the fields that a traversal follows. -/
def parts (n : Node) : List Node :=
  n.kind.fields.flatMap fun field => (n.child? field).toList ++ n.children field

theorem map_node_visited (o : Occurrence) : o.visited.map (·.node) = o.node.parts := by
  rw [visited_eq, parts, List.map_flatMap]
  refine List.flatMap_congr fun field _ => ?_
  rw [List.map_append, map_node_children, ← map_node_child?, Option.toList_map]

/-- What is hoisted out of a tree it declares itself, or it is hoisted out of a part. -/
theorem hoistedNames_eq (n : Node) :
    n.hoistedNames =
      (if n.kind = .variableDeclaration ∧ n.text? "kind" = some "var" then n.declaredNames else [])
        ++ n.parts.flatMap hoistedOut := by
  rw [hoistedNames, hoisted_eq, names_append, names_flatMap]
  congr 1
  · split <;> rfl
  · rw [← map_node_visited ⟨[], n⟩, List.flatMap_map]
    refine List.flatMap_congr fun c _ => ?_
    rw [hoistedOut, ← names_hoisted]
    split <;> rfl

/-- A node whose value of one field is dropped has no other parts than before. -/
theorem mem_parts_setValue {field : String} {json : Json} {c : Node}
    (h : c ∈ (n.setValue field json).parts) : c ∈ n.parts := by
  obtain ⟨other, hother, hc⟩ := List.mem_flatMap.mp h
  refine List.mem_flatMap.mpr ⟨other, hother, ?_⟩
  by_cases hsame : other = field
  · subst hsame
    simp [setValue, child?, children, slots?, Field.child?, Field.slots?] at hc
  · simpa only [setValue, child?, children, slots?, get?_set_of_ne hsame] using hc

end Node

namespace Optimize

variable {block s : Node} {name : String}

/-! ## What is reached -/

/-- The statements of a block up to the first return. -/
def reachable (block : Node) : List Node :=
  let slots := (block.slots? "body").getD []
  (slots.takeWhile (!isReturn ·) ++ (slots.dropWhile (!isReturn ·)).take 1).filterMap id

/-- The statements of a block that follow a return. -/
def unreachable (block : Node) : List Node :=
  (((block.slots? "body").getD []).dropWhile (!isReturn ·)).tail.filterMap id

theorem statements_eq (block : Node) :
    block.children "body" = reachable block ++ unreachable block := by
  rw [reachable, unreachable, ← List.filterMap_append, List.append_assoc, ← List.drop_one,
    List.take_append_drop, List.takeWhile_append_dropWhile]
  rfl

theorem pruneStatements_eq (slots : List (Option Node)) :
    pruneStatements slots =
      slots.takeWhile (!isReturn ·) ++ (slots.dropWhile (!isReturn ·)).take 1 ++
        (((slots.dropWhile (!isReturn ·)).tail.filterMap id).filterMap unreachableRemainder?).map
          some := by
  induction slots with
  | nil => rfl
  | cons slot rest ih =>
      rw [pruneStatements]
      cases h : isReturn slot with
      | true => simp [h]
      | false => simp [h, ih]

theorem statements_prune (block : Node) :
    (prune block).children "body"
      = reachable block ++ (unreachable block).filterMap unreachableRemainder? := by
  cases h : block.slots? "body" with
  | none => simp [prune, children, reachable, unreachable, h]
  | some slots =>
      have hslots : (prune block).slots? "body" = some (pruneStatements slots) := by
        rw [prune, h, slots?_eq_some_iff, get?_set_self]
      rw [children, hslots, Option.getD_some, pruneStatements_eq, List.filterMap_append, reachable,
        unreachable, h, Option.getD_some, List.filterMap_map]
      simp

theorem child?_prune (block : Node) : (prune block).child? "body" = block.child? "body" := by
  unfold prune
  split
  · rename_i slots h
    rw [slots?_eq_some_iff] at h
    simp [child?, h, Field.child?]
  · rfl

/-- A block hoists what its statements hoist. -/
theorem mem_hoistedNames_of_block (hkind : block.kind = .blockStatement) :
    name ∈ block.hoistedNames ↔
      (∃ c, block.child? "body" = some c ∧ name ∈ c.hoistedOut) ∨
        ∃ s ∈ block.children "body", name ∈ s.hoistedOut := by
  have hfields : Kind.fields .blockStatement = ["body"] := rfl
  rw [hoistedNames_eq, parts, hkind, hfields]
  simp

/-! ## What outlasts the pruning -/

/-- A declarator of a declaration that is never reached, without its value unless a pattern needs this. -/
def declaratorLeft (s d : Node) : Node :=
  if isPlainDeclaration ((s.slots? "declarations").getD []) then d.setValue "init" .null else d

/-- The name is hoisted out of a statement that is reached, or out of a `var` declaration that stands in
the block itself. The latter hoists what it declares, and what is left of its declarators. -/
def Outlasts (block : Node) (name : String) : Prop :=
  (∃ s ∈ reachable block, name ∈ s.hoistedOut) ∨
    ∃ s ∈ unreachable block, isVarDeclaration s = true ∧
      (name ∈ s.declaredNames ∨
        ∃ d ∈ s.children "declarations", name ∈ (declaratorLeft s d).hoistedOut)

instance (block : Node) (name : String) : Decidable (Outlasts block name) :=
  inferInstanceAs (Decidable (_ ∨ _))

theorem child?_declaratorLeft (s d : Node) : (declaratorLeft s d).child? "id" = d.child? "id" := by
  unfold declaratorLeft
  split
  · simp only [setValue, child?, get?_set_of_ne (show "id" ≠ "init" by decide)]
  · rfl

/-- No name is hoisted out of a node only because a value is dropped. -/
theorem mem_hoistedOut_of_setValue {d : Node}
    (h : name ∈ (d.setValue "init" .null).hoistedOut) : name ∈ d.hoistedOut := by
  have hkind : (d.setValue "init" .null).kind = d.kind := rfl
  have htext : (d.setValue "init" .null).text? "kind" = d.text? "kind" :=
    text?_congr (get?_set_of_ne (by decide))
  have hdeclared : (d.setValue "init" .null).declaredNames = d.declaredNames := by
    rw [declaredNames_eq, declaredNames_eq]
    simp only [setValue, children, slots?, get?_set_of_ne (show "declarations" ≠ "init" by decide)]
  unfold hoistedOut at h ⊢
  rw [hkind] at h
  by_cases hbarrier : Occurrence.isHoistBarrier d.kind = true
  · rw [if_pos hbarrier] at h
    cases h
  · rw [if_neg hbarrier, hoistedNames_eq, List.mem_append, List.mem_flatMap] at h ⊢
    rw [hkind, htext, hdeclared] at h
    refine h.imp_right ?_
    rintro ⟨c, hc, hname⟩
    exact ⟨c, mem_parts_setValue hc, hname⟩

theorem mem_hoistedOut_of_declaratorLeft {d : Node} (h : name ∈ (declaratorLeft s d).hoistedOut) :
    name ∈ d.hoistedOut := by
  unfold declaratorLeft at h
  split at h
  · exact mem_hoistedOut_of_setValue h
  · exact h

/-- A `var` declaration hoists what it declares, and what its declarators hoist. -/
theorem hoistedOut_of_isVarDeclaration (h : isVarDeclaration s = true) :
    s.hoistedOut = s.declaredNames ++
      ((s.child? "declarations").toList ++ s.children "declarations").flatMap hoistedOut := by
  simp only [isVarDeclaration, Bool.and_eq_true, beq_iff_eq] at h
  have hbarrier : Occurrence.isHoistBarrier s.kind = false := by rw [h.1]; rfl
  have hfields : Kind.fields .variableDeclaration = ["declarations"] := rfl
  rw [hoistedOut, hbarrier, if_neg Bool.false_ne_true, hoistedNames_eq, if_pos h, parts, h.1, hfields,
    List.flatMap_singleton]

theorem unreachableRemainder?_of_isVarDeclaration (h : isVarDeclaration s = true) :
    unreachableRemainder? s = (s.slots? "declarations").map fun declarators =>
      if isPlainDeclaration declarators then
        s.set "declarations" (.list (declarators.map (·.map (·.setValue "init" .null))))
      else s := by
  have hkind : s.kind ≠ .functionDeclaration := by
    intro hkind
    simp [isVarDeclaration, hkind] at h
  rw [unreachableRemainder?, if_neg hkind, if_pos h]

/-- What is left of a `var` declaration is one, of the declarators that are left. -/
theorem remainder_of_isVarDeclaration {r : Node} (hvar : isVarDeclaration s = true)
    (h : unreachableRemainder? s = some r) :
    isVarDeclaration r = true ∧ r.child? "declarations" = none ∧
      r.children "declarations" = (s.children "declarations").map (declaratorLeft s) := by
  rw [unreachableRemainder?_of_isVarDeclaration hvar] at h
  obtain ⟨slots, hslots, rfl⟩ := Option.map_eq_some_iff.mp h
  have hget := slots?_eq_some_iff.mp hslots
  by_cases hplain : isPlainDeclaration slots = true
  · rw [if_pos hplain]
    refine ⟨?_, ?_, ?_⟩
    · rw [isVarDeclaration, kind_set, text?_congr (get?_set_of_ne (by decide))]
      exact hvar
    · simp [child?, Field.child?]
    · have hleft : declaratorLeft s = fun d => d.setValue "init" .null := by
        funext d
        rw [declaratorLeft, hslots, Option.getD_some, if_pos hplain]
      rw [hleft]
      simp [children, slots?, hget, Field.slots?, List.filterMap_map, List.map_filterMap]
  · rw [if_neg hplain]
    have hleft : declaratorLeft s = id := by
      funext d
      rw [declaratorLeft, hslots, Option.getD_some, if_neg hplain, id]
    refine ⟨hvar, ?_, ?_⟩
    · simp [child?, hget, Field.child?]
    · rw [hleft, List.map_id]

/-- A statement that is never reached leaves nothing to be hoisted, unless it is a `var` declaration. -/
theorem mem_hoistedOut_remainder_iff :
    (∃ r, unreachableRemainder? s = some r ∧ name ∈ r.hoistedOut) ↔
      isVarDeclaration s = true ∧ (name ∈ s.declaredNames ∨
        ∃ d ∈ s.children "declarations", name ∈ (declaratorLeft s d).hoistedOut) := by
  by_cases hvar : isVarDeclaration s = true
  · rw [and_iff_right hvar]
    cases hr : unreachableRemainder? s with
    | none =>
        -- There is no list of declarators, and nothing is declared.
        rw [unreachableRemainder?_of_isVarDeclaration hvar, Option.map_eq_none_iff] at hr
        have hchildren : s.children "declarations" = [] := by rw [children, hr]; rfl
        simp [declaredNames_eq, hchildren]
    | some r =>
        obtain ⟨hr', hnone, hchildren⟩ := remainder_of_isVarDeclaration hvar hr
        have hdeclared : r.declaredNames = s.declaredNames := by
          rw [declaredNames_eq, declaredNames_eq, hchildren, List.flatMap_map]
          refine List.flatMap_congr fun d _ => ?_
          rw [child?_declaratorLeft]
        simp only [Option.some.injEq, exists_eq_left', hoistedOut_of_isVarDeclaration hr',
          hnone, hdeclared, hchildren, List.mem_append, List.mem_flatMap, Option.toList_none,
          List.nil_append, List.mem_map, exists_exists_and_eq_and]
  · simp only [hvar, Bool.false_eq_true, false_and, iff_false, not_exists, not_and]
    intro r hr
    by_cases hkind : s.kind = .functionDeclaration
    · rw [unreachableRemainder?, if_pos hkind] at hr
      cases hr
      have hbarrier : Occurrence.isHoistBarrier s.kind = true := by rw [hkind]; rfl
      rw [hoistedOut, if_pos hbarrier]
      exact List.not_mem_nil
    · rw [unreachableRemainder?, if_neg hkind, if_neg hvar] at hr
      cases hr

/-- Only what is hoisted out of a block outlasts. -/
theorem mem_hoistedNames_of_outlasts (h : Outlasts block name) :
    ∃ s ∈ block.children "body", name ∈ s.hoistedOut := by
  rw [statements_eq]
  rcases h with ⟨s, hs, hname⟩ | ⟨s, hs, hvar, hname⟩
  · exact ⟨s, List.mem_append_left _ hs, hname⟩
  · refine ⟨s, List.mem_append_right _ hs, ?_⟩
    rw [hoistedOut_of_isVarDeclaration hvar, List.mem_append, List.mem_flatMap]
    refine hname.imp_right ?_
    rintro ⟨d, hd, hname⟩
    exact ⟨d, List.mem_append_right _ hd, mem_hoistedOut_of_declaratorLeft hname⟩

/-- What the statements of a pruned block hoist is what outlasts. -/
theorem outlasts_iff :
    Outlasts block name ↔ ∃ s ∈ (prune block).children "body", name ∈ s.hoistedOut := by
  rw [statements_prune, Outlasts]
  simp only [← mem_hoistedOut_remainder_iff, List.mem_append, or_and_right, exists_or,
    List.mem_filterMap]
  refine or_congr_right ?_
  constructor
  · rintro ⟨s, hs, r, hr, hname⟩
    exact ⟨r, ⟨s, hs, hr⟩, hname⟩
  · rintro ⟨r, ⟨s, hs, hr⟩, hname⟩
    exact ⟨s, hs, r, hr, hname⟩

/-- **Each name.** A name is hoisted out of the pruned block iff it was hoisted out of the block, and
outlasts if a statement hoists it that is never reached. -/
theorem mem_hoistedNames_prune_iff (hkind : block.kind = .blockStatement) :
    name ∈ (prune block).hoistedNames ↔
      name ∈ block.hoistedNames ∧
        ((∃ s ∈ unreachable block, name ∈ s.hoistedOut) → Outlasts block name) := by
  rw [mem_hoistedNames_of_block hkind, mem_hoistedNames_of_block ((kind_prune block).trans hkind),
    child?_prune, ← outlasts_iff]
  constructor
  · rintro (⟨c, hc, hname⟩ | h)
    · -- The body is a single node: there is no list to be pruned.
      refine ⟨.inl ⟨c, hc, hname⟩, ?_⟩
      rintro ⟨s, hs, _⟩
      rw [child?_eq_some_iff] at hc
      simp [unreachable, slots?, hc, Field.slots?] at hs
    · exact ⟨.inr (mem_hoistedNames_of_outlasts h), fun _ => h⟩
  · rintro ⟨h | ⟨s, hs, hname⟩, houtlasts⟩
    · exact .inl h
    · right
      rw [statements_eq, List.mem_append] at hs
      rcases hs with hs | hs
      · exact .inl ⟨s, hs, hname⟩
      · exact houtlasts ⟨s, hs, hname⟩

/-- **When pruning keeps what is hoisted.** No name is hoisted out of a pruned block that was not hoisted
out of it before. The names are the same iff every name that is hoisted out of a statement after the first
return is also hoisted out of a statement up to there, or declared by a `var` declaration that stands in
the block itself. -/
theorem prune_keeps_hoisted_iff (hkind : block.kind = .blockStatement) :
    (∀ name ∈ (prune block).hoistedNames, name ∈ block.hoistedNames) ∧
      ((∀ name, name ∈ (prune block).hoistedNames ↔ name ∈ block.hoistedNames) ↔
        ∀ s ∈ unreachable block, ∀ name ∈ s.hoistedOut, Outlasts block name) := by
  constructor
  · intro name h
    exact ((mem_hoistedNames_prune_iff hkind).mp h).1
  · constructor
    · intro h s hs name hname
      have hblock : name ∈ block.hoistedNames := by
        rw [mem_hoistedNames_of_block hkind, statements_eq]
        exact .inr ⟨s, List.mem_append_right _ hs, hname⟩
      exact ((mem_hoistedNames_prune_iff hkind).mp ((h name).mpr hblock)).2 ⟨s, hs, hname⟩
    · intro h name
      rw [mem_hoistedNames_prune_iff hkind]
      refine and_iff_left_of_imp fun _ => ?_
      rintro ⟨s, hs, hname⟩
      exact h s hs name hname

/-- A block that returns before a statement. -/
def returningBefore (s : Node) : Node :=
  ⟨.blockStatement, [("body", .list [some ⟨.returnStatement, [("argument", .value .null)]⟩, some s])]⟩

/-- `var b = a;` -/
def declaringB : Node :=
  ⟨.variableDeclaration, [("kind", .value (.string "var")), ("declarations", .list
    [some ⟨.variableDeclarator, [("id", .child (Expression.identifier "b")),
      ("init", .child (Expression.identifier "a"))]⟩])]⟩

/-- `if (a) { var b = a; }` -/
def declaringInside : Node :=
  ⟨.ifStatement, [("test", .child (Expression.identifier "a")),
    ("consequent", .child ⟨.blockStatement, [("body", .list [some declaringB])]⟩),
    ("alternate", .value .null)]⟩

/-- A variable is kept that is declared in the block itself, and one is lost that is declared further
inside. -/
theorem prune_keeps_hoisted_iff_returningBefore :
    (∀ name, name ∈ (prune (returningBefore declaringB)).hoistedNames ↔
        name ∈ (returningBefore declaringB).hoistedNames) ∧
      "b" ∈ (returningBefore declaringInside).hoistedNames ∧
      ¬ ∀ name, name ∈ (prune (returningBefore declaringInside)).hoistedNames ↔
        name ∈ (returningBefore declaringInside).hoistedNames := by
  refine ⟨?_, by decide +kernel, ?_⟩
  · exact (prune_keeps_hoisted_iff rfl).2.mpr (by decide +kernel)
  · intro h
    exact absurd ((prune_keeps_hoisted_iff rfl).2.mp h) (by decide +kernel)

end Optimize

end Minifier
