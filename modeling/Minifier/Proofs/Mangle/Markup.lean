import Minifier.Proofs.Mangle.Seed

/-!
# Element names in markup

Whether an element name in markup is a reference depends on how it is spelled: a name that starts with a small
letter is that of an element of the host, and refers to nothing. Names are given without regard to where they
are used, so that a component may be given the name of an element.

A markup name that takes another name was a reference, and the name is the one that its binding was given
(`reference_of_renamed_markup`). It stays a reference iff it is no element name, or the new name does
not start with a small letter (`markup_references_kept_iff`).
-/

namespace Minifier.Mangle

open Node

variable {options : Options} {t n : Node} {q : Path} {name g : String}

/-- The name starts with a small letter. -/
def startsSmall (name : String) : Bool := name.toList.head?.any Char.isLower

/-- What stands below these ancestors is the name of an element. -/
def namesElement (ancestors : List Ancestor) : Bool :=
  ancestors.head?.any fun parent =>
    (parent.kind = .jsxOpeningElement || parent.kind = .jsxClosingElement) && parent.field = "name"

/-- The node at a position refers to a binding that may be renamed. -/
def isReferenceAt (t : Node) (q : Path) : Bool :=
  (t.at? q).any fun n => Scope.isRenamable n.kind (n.name?.getD "") (t.ancestors q)

theorem isReferenceAt_of_at? (hq : t.at? q = some n) :
    isReferenceAt t q = Scope.isRenamable n.kind ((t.nameAt? q).getD "") (t.ancestors q) := by
  rw [isReferenceAt, nameAt?, hq]
  rfl

/-! ## Spelling decides -/

theorem isMarkupReference_eq (name : String) (parent : Ancestor) (above : List Ancestor) :
    Scope.isMarkupReference name parent
      = if namesElement (parent :: above) then !startsSmall name
        else parent.kind = .jsxMemberExpression && parent.field = "object" := by
  unfold Scope.isMarkupReference namesElement startsSmall
  split
  · rename_i hkind hfield
    simp [hkind, hfield]
  · rename_i hkind hfield
    simp [hkind, hfield]
  · rename_i hkind hfield
    simp [hkind, hfield]
  · rename_i hopening hclosing hmember
    have hopening : parent.kind = .jsxOpeningElement → parent.field ≠ "name" := hopening
    have hclosing : parent.kind = .jsxClosingElement → parent.field ≠ "name" := hclosing
    have hmember : parent.kind = .jsxMemberExpression → parent.field ≠ "object" := hmember
    simp only [List.head?_cons, Option.any_some, Bool.and_eq_true, Bool.or_eq_true, decide_eq_true_eq]
    rw [if_neg (by tauto), eq_comm, Bool.and_eq_false_iff, decide_eq_false_iff_not,
      decide_eq_false_iff_not]
    tauto

/-- A markup name that is a reference is one with any other spelling, unless it is an element name that
starts with a small letter then. -/
theorem isRenamable_respelled {ancestors : List Ancestor}
    (h : Scope.isRenamable .jsxIdentifier name ancestors = true) (g : String) :
    Scope.isRenamable .jsxIdentifier g ancestors = !(namesElement ancestors && startsSmall g) := by
  cases ancestors with
  | nil => cases h
  | cons parent above =>
      have hfixed : ¬ Scope.isFixedBinding (parent :: above) = true := by
        intro hfixed
        rw [Scope.isRenamable_of_isFixedBinding hfixed] at h
        cases h
      rw [Scope.isRenamable, if_neg hfixed, if_pos rfl, isMarkupReference_eq _ _ above] at h ⊢
      cases helement : namesElement (parent :: above) with
      | true => simp
      | false =>
          rw [helement] at h
          exact h

/-! ## What mangling does to a markup name -/

/-- A markup name that takes another name was a reference, and takes a name that was given to a candidate
of its old name. -/
theorem reference_of_renamed_markup (hq : t.at? q = some n) (hkind : n.kind = .jsxIdentifier)
    (hne : (mangle options t).1.nameAt? q ≠ t.nameAt? q) :
    isReferenceAt t q = true ∧
      ∃ a ∈ (mangle options t).2.assignments,
        t.nameAt? q = some a.candidate.name ∧ (mangle options t).1.nameAt? q = some a.generated := by
  obtain ⟨g, hg⟩ := (nameAt?_ne_iff options t q).mp hne
  obtain ⟨_, m, name, hmet, _, hname⟩ := renamed_of_changes (sites_of options t) (fun _ hr => hr) hg
  obtain rfl := eq_of_met? hmet hq
  -- Sites are plain identifiers.
  have hsite : (Knowledge.of options t).site? q = none := by
    cases hsite : (Knowledge.of options t).site? q with
    | none => rfl
    | some site =>
        obtain ⟨m, hm, hplain, _⟩ := Knowledge.node_of_site? (sites_of options t) hsite
        rw [hmet] at hm
        cases hm
        rw [hkind] at hplain
        cases hplain
  have hafter : (mangle options t).1.nameAt? q = some g := by
    rw [nameAt?_mangle hq, hg, name?_revise_renamed]
  have hbefore : t.nameAt? q = some name := by
    rw [nameAt?, hq]
    exact hname
  rw [Knowledge.changes_of_no_site hsite (mem_positions_iff.mpr ⟨_, hmet⟩)] at hg
  obtain ⟨hreference, scope, hgenerated⟩ :=
    reference_of_effect (sites_of options t) hmet hsite hname hg
  refine ⟨?_, ⟨⟨name, scope⟩, g⟩, exists_of_generated? hgenerated, hbefore, hafter⟩
  rw [isReferenceAt_of_at? hq, hbefore]
  exact hreference

/-- The ancestors of a position of the mangled tree decide like those of the original one. -/
theorem isReferenceAt_mangle (options : Options) (hq : t.at? q = some n) :
    isReferenceAt (mangle options t).1 q
      = Scope.isRenamable n.kind (((mangle options t).1.nameAt? q).getD "") (t.ancestors q) := by
  have htracks := tracks_mangle options t
  obtain ⟨m, hm, hout⟩ := htracks.at? hq
  have hkind : m.kind = n.kind := by rw [← kind_outline, hout, kind_revise, kind_outline]
  have hm : (mangle options t).1.at? q = some m := hm
  have hsame := Scope.isRenamable_eq htracks.resembles hq (fun _ h => nomatch h) n.kind
    (((mangle options t).1.nameAt? q).getD "")
  rw [isReferenceAt_of_at? hm, hkind]
  exact hsame

/-- **Element names may become those of the host.** Whether a markup name is a reference is the same before
and after mangling iff it keeps its name, is no element name, or does not take a name that starts with a
small letter. A markup name that takes another name was a reference, and takes the name that a candidate
of its name was given. -/
theorem markup_references_kept_iff (options : Options) (hq : t.at? q = some n)
    (hkind : n.kind = .jsxIdentifier) :
    (isReferenceAt (mangle options t).1 q = isReferenceAt t q ↔
      (mangle options t).1.nameAt? q = t.nameAt? q ∨ namesElement (t.ancestors q) = false ∨
        ((mangle options t).1.nameAt? q).any startsSmall = false) ∧
    ((mangle options t).1.nameAt? q ≠ t.nameAt? q →
      isReferenceAt t q = true ∧
        ∃ a ∈ (mangle options t).2.assignments,
          t.nameAt? q = some a.candidate.name ∧ (mangle options t).1.nameAt? q = some a.generated) := by
  refine ⟨?_, reference_of_renamed_markup hq hkind⟩
  by_cases hsame : (mangle options t).1.nameAt? q = t.nameAt? q
  · rw [isReferenceAt_mangle options hq, hsame, isReferenceAt_of_at? hq]
    simp
  · obtain ⟨hbefore, a, _, _, hafter⟩ := reference_of_renamed_markup hq hkind hsame
    have hreference : Scope.isRenamable .jsxIdentifier ((t.nameAt? q).getD "") (t.ancestors q) = true := by
      rw [← hkind, ← isReferenceAt_of_at? hq, hbefore]
    have hnow : isReferenceAt (mangle options t).1 q
        = !(namesElement (t.ancestors q) && startsSmall a.generated) := by
      rw [isReferenceAt_mangle options hq, hafter, hkind]
      exact isRenamable_respelled hreference _
    rw [hnow, hbefore, or_iff_right hsame, hafter]
    simp

/-- `var App; var Item; <Item />;` -/
def rendering : Node :=
  ⟨.program, [("body", .list
    [some (declaring "var" "App"), some (declaring "var" "Item"),
     some ⟨.expressionStatement, [("expression", .child ⟨.jsxElement,
      [("openingElement", .child ⟨.jsxOpeningElement,
        [("name", .child ⟨.jsxIdentifier, [("name", .value (.string "Item"))]⟩),
         ("attributes", .list [])]⟩)]⟩)]⟩])]⟩

/-- The element name is a reference to the second variable, which is given the name `o`. -/
theorem markup_references_kept_iff_rendering :
    (mangle {} rendering).1.nameAt?
        [⟨"body", some 2⟩, ⟨"expression", none⟩, ⟨"openingElement", none⟩, ⟨"name", none⟩] = some "o" ∧
      isReferenceAt (mangle {} rendering).1
          [⟨"body", some 2⟩, ⟨"expression", none⟩, ⟨"openingElement", none⟩, ⟨"name", none⟩]
        ≠ isReferenceAt rendering
          [⟨"body", some 2⟩, ⟨"expression", none⟩, ⟨"openingElement", none⟩, ⟨"name", none⟩] := by
  have hat : rendering.at?
      [⟨"body", some 2⟩, ⟨"expression", none⟩, ⟨"openingElement", none⟩, ⟨"name", none⟩]
        = some ⟨.jsxIdentifier, [("name", .value (.string "Item"))]⟩ := rfl
  have hafter : (mangle {} rendering).1.nameAt?
      [⟨"body", some 2⟩, ⟨"expression", none⟩, ⟨"openingElement", none⟩, ⟨"name", none⟩] = some "o" := by
    unfold mangle mangleWith
    rw [Knowledge.of_default]
    decide +kernel
  refine ⟨hafter, fun hkept => ?_⟩
  have hreason := (markup_references_kept_iff {} hat rfl).1.mp hkept
  rw [hafter] at hreason
  revert hreason
  decide +kernel

end Minifier.Mangle
