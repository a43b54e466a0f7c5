import Minifier.Proofs.Tree.Traversal
import Minifier.Scope.Visible

/-!
# The bindings that are enumerated

Equations for the functions that enumerate bindings, in the form in which proofs use them: a pattern is
an identifier or has parts (`patternParts`), and each function is a concatenation over what lies one
level down.

Everything that is enumerated from an occurrence lies at or below it (`Contains`).
-/

namespace Minifier.Occurrence

open Node

/-! ## Equations -/

/-- The parts of a pattern, one level down. -/
def patternParts (o : Occurrence) : List Occurrence :=
  match o.node.kind with
  | .objectPattern =>
    (o.children "properties").flatMap fun property =>
      if property.node.kind = .property then (property.child? "value").toList else [property]
  | .arrayPattern => o.children "elements"
  | .assignmentPattern => (o.child? "left").toList
  | .restElement => (o.child? "argument").toList
  | _ => []

theorem bindings_eq (o : Occurrence) :
    o.bindings = if o.node.kind = .identifier then [o] else o.patternParts.flatMap bindings := by
  rw [bindings]
  unfold patternParts
  cases hkind : o.node.kind with
  | identifier => simp
  | objectPattern =>
      simp only [reduceCtorEq, if_false]
      rw [List.flatMap_assoc, List.flatMap_subtype (g := fun property : Occurrence =>
        if property.node.kind = .property then
          ((property.child? "value").map bindings).getD [] else property.bindings)]
      · rw [List.unattach_attach]
        congr 1
        funext property
        split
        · cases property.child? "value" <;> simp
        · simp
      · intro property _
        split
        · split <;> simp [*]
        · rfl
  | arrayPattern => simp [List.flatMap_subtype]
  | assignmentPattern =>
      simp only [reduceCtorEq, if_false]
      split <;> simp [*]
  | restElement =>
      simp only [reduceCtorEq, if_false]
      split <;> simp [*]
  | _ => simp

theorem hoisted_eq (o : Occurrence) :
    o.hoisted =
      (if o.node.kind = .variableDeclaration ∧ o.node.text? "kind" = some "var" then o.declared
        else []) ++
        o.visited.flatMap fun child =>
          if isHoistBarrier child.node.kind then [] else child.hoisted := by
  rw [hoisted]
  simp only [List.flatMap_subtype, List.unattach_attach]

theorem statementBindings_eq (o : Occurrence) :
    o.statementBindings =
      match o.node.kind with
      | .variableDeclaration => o.declared
      | .functionDeclaration | .classDeclaration => (o.child? "id").toList
      | .exportNamedDeclaration | .exportDefaultDeclaration =>
        (o.child? "declaration").toList.flatMap statementBindings
      | .importDeclaration =>
        (o.children "specifiers").filterMap fun specifier => specifier.child? "local"
      | _ => [] := by
  rw [statementBindings]
  cases hkind : o.node.kind with
  | exportNamedDeclaration =>
      simp only
      split <;> simp [*]
  | exportDefaultDeclaration =>
      simp only
      split <;> simp [*]
  | _ => rfl

/-- The parts of a pattern are smaller than it. -/
theorem size_patternParts_lt {o x : Occurrence} (h : x ∈ o.patternParts) :
    x.node.size < o.node.size := by
  unfold patternParts at h
  split at h
  · obtain ⟨property, hproperty, hx⟩ := List.mem_flatMap.mp h
    have hlt := size_children_lt hproperty
    split at hx
    · exact Nat.lt_trans (size_child_lt (Option.mem_toList.mp hx)) hlt
    · rw [List.mem_singleton.mp hx]
      exact hlt
  · exact size_children_lt h
  · exact size_child_lt (Option.mem_toList.mp h)
  · exact size_child_lt (Option.mem_toList.mp h)
  · cases h

/-- Patterns are taken apart until identifiers are left. -/
theorem bindings_induction {motive : Occurrence → Prop}
    (step : ∀ o, (∀ x ∈ o.patternParts, motive x) → motive o) (o : Occurrence) : motive o := by
  induction hsize : o.node.size using Nat.strongRecOn generalizing o with
  | ind size ih => exact step o fun x hx => ih _ (hsize ▸ size_patternParts_lt hx) x rfl

/-- Below a tree, the trees that a traversal visits are smaller. -/
theorem visited_induction {motive : Occurrence → Prop}
    (step : ∀ o, (∀ x ∈ o.visited, motive x) → motive o) (o : Occurrence) : motive o := by
  induction hsize : o.node.size using Nat.strongRecOn generalizing o with
  | ind size ih => exact step o fun x hx => ih _ (hsize ▸ size_visited_lt hx) x rfl

/-- Below a statement, the statement that it exports is smaller. -/
theorem exported_induction {motive : Occurrence → Prop}
    (step : ∀ o, (∀ x, o.child? "declaration" = some x → motive x) → motive o) (o : Occurrence) :
    motive o := by
  induction hsize : o.node.size using Nat.strongRecOn generalizing o with
  | ind size ih => exact step o fun x hx => ih _ (hsize ▸ size_child_lt hx) x rfl

/-! ## What is enumerated lies below -/

/-- The second occurrence is the first or lies below it. -/
def Contains (o x : Occurrence) : Prop := ∃ q, x.path = o.path ++ q ∧ o.node.at? q = some x.node

theorem Contains.refl (o : Occurrence) : o.Contains o := ⟨[], by simp, rfl⟩

theorem Contains.trans {o x y : Occurrence} (h : o.Contains x) (h' : x.Contains y) :
    o.Contains y := by
  obtain ⟨q, hq, hx⟩ := h
  obtain ⟨r, hr, hy⟩ := h'
  refine ⟨q ++ r, by rw [hr, hq, List.append_assoc], ?_⟩
  rw [at?_append, hx]
  exact hy

/-- What is below an occurrence of a tree is an occurrence of the tree. -/
theorem Contains.holds {t : Node} {o x : Occurrence} (h : o.Contains x) (ho : t.Holds o) :
    t.Holds x := by
  obtain ⟨q, hq, hx⟩ := h
  show t.at? x.path = some x.node
  rw [hq, at?_append, show t.at? o.path = some o.node from ho]
  exact hx

theorem Contains.isPrefixOf {o x : Occurrence} (h : o.Contains x) : o.path <+: x.path := by
  obtain ⟨q, hq, _⟩ := h
  exact ⟨q, hq.symm⟩

theorem contains_of_child? {o c : Occurrence} {field : String} (h : o.child? field = some c) :
    o.Contains c := by
  obtain ⟨hstep, hpath⟩ := child?_eq_some_iff.mp h
  exact ⟨_, hpath, by simp [hstep]⟩

theorem contains_of_mem_children {o c : Occurrence} {field : String} (h : c ∈ o.children field) :
    o.Contains c := by
  obtain ⟨i, hstep, hpath⟩ := mem_children_iff.mp h
  exact ⟨_, hpath, by simp [hstep]⟩

theorem contains_of_mem_visited {o c : Occurrence} (h : c ∈ o.visited) : o.Contains c := by
  rw [visited_eq] at h
  obtain ⟨field, _, hc⟩ := List.mem_flatMap.mp h
  rcases List.mem_append.mp hc with hchild | hchildren
  · exact contains_of_child? (Option.mem_toList.mp hchild)
  · exact contains_of_mem_children hchildren

theorem contains_of_mem_patternParts {o x : Occurrence} (h : x ∈ o.patternParts) :
    o.Contains x := by
  unfold patternParts at h
  split at h
  · obtain ⟨property, hproperty, hx⟩ := List.mem_flatMap.mp h
    have hcontains := contains_of_mem_children hproperty
    split at hx
    · exact hcontains.trans (contains_of_child? (Option.mem_toList.mp hx))
    · rw [List.mem_singleton.mp hx]
      exact hcontains
  · exact contains_of_mem_children h
  · exact contains_of_child? (Option.mem_toList.mp h)
  · exact contains_of_child? (Option.mem_toList.mp h)
  · cases h

/-- A traversal meets the parts of the patterns that it meets. -/
theorem mem_below_of_mem_patternParts {o x : Occurrence} (h : x ∈ o.patternParts) : x ∈ o.below := by
  unfold patternParts at h
  split at h
  · rename_i hkind
    obtain ⟨property, hproperty, hx⟩ := List.mem_flatMap.mp h
    have hmet := mem_below_of_mem_children (by rw [hkind]; decide) hproperty
    split at hx
    · rename_i hvalue
      exact mem_below_trans hmet
        (mem_below_of_child? (by rw [hvalue]; decide) (Option.mem_toList.mp hx))
    · rw [List.mem_singleton.mp hx]
      exact hmet
  · rename_i hkind
    exact mem_below_of_mem_children (by rw [hkind]; decide) h
  · rename_i hkind
    exact mem_below_of_child? (by rw [hkind]; decide) (Option.mem_toList.mp h)
  · rename_i hkind
    exact mem_below_of_child? (by rw [hkind]; decide) (Option.mem_toList.mp h)
  · cases h

theorem contains_of_mem_bindings {o b : Occurrence} (h : b ∈ o.bindings) : o.Contains b := by
  induction o using bindings_induction with
  | step o ih =>
      rw [bindings_eq] at h
      split at h
      · rw [List.mem_singleton.mp h]
        exact Contains.refl o
      · obtain ⟨x, hx, hb⟩ := List.mem_flatMap.mp h
        exact (contains_of_mem_patternParts hx).trans (ih x hx hb)

/-- A binding of a declaration stands in the pattern of one of its declarators. -/
theorem mem_declared_iff {o b : Occurrence} :
    b ∈ o.declared ↔
      ∃ d ∈ o.children "declarations", ∃ root, d.child? "id" = some root ∧ b ∈ root.bindings := by
  unfold declared
  rw [List.mem_flatMap]
  refine exists_congr fun d => and_congr_right fun _ => ?_
  cases d.child? "id" <;> simp

theorem contains_of_mem_declared {o b : Occurrence} (h : b ∈ o.declared) : o.Contains b := by
  obtain ⟨d, hd, root, hroot, hb⟩ := mem_declared_iff.mp h
  exact (contains_of_mem_children hd).trans
    ((contains_of_child? hroot).trans (contains_of_mem_bindings hb))

theorem contains_of_mem_hoisted {o b : Occurrence} (h : b ∈ o.hoisted) : o.Contains b := by
  induction o using visited_induction with
  | step o ih =>
      rw [hoisted_eq, List.mem_append, List.mem_flatMap] at h
      rcases h with h | ⟨c, hc, hb⟩
      · split at h
        · exact contains_of_mem_declared h
        · cases h
      · split at hb
        · cases hb
        · exact (contains_of_mem_visited hc).trans (ih c hc hb)

theorem contains_of_mem_statementBindings {o b : Occurrence} (h : b ∈ o.statementBindings) :
    o.Contains b := by
  induction o using exported_induction with
  | step o ih =>
      rw [statementBindings_eq] at h
      split at h
      · exact contains_of_mem_declared h
      · exact contains_of_child? (Option.mem_toList.mp h)
      · exact contains_of_child? (Option.mem_toList.mp h)
      · obtain ⟨x, hx, hb⟩ := List.mem_flatMap.mp h
        have hx := Option.mem_toList.mp hx
        exact (contains_of_child? hx).trans (ih x hx hb)
      · obtain ⟨x, hx, hb⟩ := List.mem_flatMap.mp h
        have hx := Option.mem_toList.mp hx
        exact (contains_of_child? hx).trans (ih x hx hb)
      · obtain ⟨s, hs, hb⟩ := List.mem_filterMap.mp h
        exact (contains_of_mem_children hs).trans (contains_of_child? hb)
      · cases h

end Minifier.Occurrence
