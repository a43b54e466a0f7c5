import Minifier.Proofs.Mangle.Interface

/-!
# Shorthand properties

A shorthand property `{ x }` spells a key and an identifier with one name. The key belongs to the object
and keeps its name. If the identifier takes another, the property is written out, and so it never gives
the object another key.

* Whether a property is written out is decided when it is visited, before its identifier is
  (`writesOut_before`). An identifier that is renamed later was a site by then, or its name was assigned
  (`site_or_assigned_of_renamed`).
* `shorthand_stays_truthful` puts this together.
-/

namespace Minifier.Mangle

open Node Occurrence

variable {t : Node} {q : Path} {n : Node} {name : String} {options : Options}
  {property key bound : Occurrence}

/-- A property of the tree in shorthand form: the key and the identifier that it stands for have one
name. -/
structure IsShorthand (t : Node) (property key bound : Occurrence) (name : String) : Prop where
  holds : t.Holds property
  kind : property.node.kind = .property
  shorthand : property.node.flag "shorthand" = true
  computed : property.node.flag "computed" = false
  spelled : property.child? "key" = some key
  standsFor : Progress.shorthandBinding? property = some bound
  keyName : key.node.name? = some name
  boundName : bound.node.name? = some name

/-- The key of a property that is not computed neither declares nor refers to anything. -/
theorem nameAt?_mangle_of_key (options : Options) (h : IsShorthand t property key bound name) :
    (mangle options t).1.nameAt? key.path = some name := by
  have hholds := (contains_of_child? h.spelled).holds h.holds
  have hbefore : t.nameAt? key.path = some name := by
    rw [nameAt?, hholds, Option.bind_some, h.keyName]
  rw [← hbefore]
  apply nameAt?_mangle_of_no_reference options hholds
  · rw [ancestors_of_child? h.holds h.spelled]
    simp [Scope.classify?, Scope.patternDepth, Scope.isPatternStep, h.kind, Kind.isFunction]
  · intro name
    rw [ancestors_of_child? h.holds h.spelled]
    simp [Scope.isRenamable, Scope.isMarkupReference, Scope.isPlainReference, h.kind, h.computed]

/-- What is renamed declares a candidate, or refers by a name that was assigned. -/
theorem site_or_assigned_of_renamed {k : Knowledge} (hk : k.sites = sites t) (hq : t.met? q = some n)
    (hname : n.name? = some name) {g : String}
    (h : k.changes (k.effect Scope.resolve t) t.positions q = some (.renamed g)) :
    (k.site? q).isSome = true ∨ k.isAssigned name = true := by
  cases hsite : k.site? q with
  | some site => exact .inl rfl
  | none =>
      rw [Knowledge.changes_of_no_site hsite (mem_positions_iff.mpr ⟨n, hq⟩)] at h
      obtain ⟨_, scope, hgenerated⟩ := reference_of_effect hk hq hsite hname h
      exact .inr (List.any_eq_true.mpr ⟨_, exists_of_generated? hgenerated, by simp⟩)

/-- A property is no site, and so what its visit does is all that is done to it. -/
theorem expanded_of_writesOut {k : Knowledge} (hk : k.sites = sites t) (hq : t.met? q = some n)
    (hkind : n.kind = .property) (hshorthand : n.flag "shorthand" = true)
    (hbound : Progress.shorthandBinding? ⟨q, n⟩ = some bound)
    (h : (k.site? bound.path).isSome = true ∨ bound.node.name?.any k.isAssigned = true) :
    k.changes (k.effect Scope.resolve t) t.positions q = some .expanded := by
  have hsite : k.site? q = none := by
    rw [Option.eq_none_iff_forall_not_mem]
    intro site hsite
    obtain ⟨m, hm, hidentifier, _⟩ := Knowledge.node_of_site? hk hsite
    obtain rfl := Option.some.inj (hm.symm.trans hq)
    rw [hkind] at hidentifier
    cases hidentifier
  rw [Knowledge.changes_of_no_site hsite (mem_positions_iff.mpr ⟨n, hq⟩),
    effect_of_property hk hq hsite hkind, writesOut_before hq, hshorthand, hbound]
  rcases h with h | h <;> simp [h]

theorem flag_revise_expanded (n : Node) :
    (revise n (some .expanded)).flag "shorthand" = false := by
  simp [revise, flag, value?, setValue, Field.value?, Json.bool?]

theorem flag_of_expanded (hq : t.at? q = some n)
    (h : (Knowledge.of options t).changes ((Knowledge.of options t).effect Scope.resolve t)
      t.positions q = some .expanded) :
    ((mangle options t).1.at? q).map (·.flag "shorthand") = some false := by
  have hflag := (tracks_mangle options t).flag_eq q "shorthand"
  rw [hq, h, Option.map_some] at hflag
  rw [← flag_revise_expanded n.outline]
  exact hflag

/-- **Shorthand properties stay truthful.** The key keeps its name, and the property is written out unless
the identifier that it stands for keeps the name too. -/
theorem shorthand_stays_truthful (options : Options) (h : IsShorthand t property key bound name) :
    (mangle options t).1.nameAt? key.path = some name ∧
      (((mangle options t).1.at? property.path).map (·.flag "shorthand") = some false ∨
        (mangle options t).1.nameAt? bound.path = some name) := by
  refine ⟨nameAt?_mangle_of_key options h, ?_⟩
  have hcontains := contains_of_shorthandBinding? h.standsFor
  have hbefore : t.nameAt? bound.path = some name := by
    rw [nameAt?, hcontains.holds h.holds, Option.bind_some, h.boundName]
  by_cases hsame : (mangle options t).1.nameAt? bound.path = t.nameAt? bound.path
  · exact .inr (hsame.trans hbefore)
  · left
    obtain ⟨g, hg⟩ := (nameAt?_ne_iff options t bound.path).mp hsame
    obtain ⟨_, m, _, hmet, _⟩ := renamed_of_changes (sites_of options t) (fun _ hr => hr) hg
    obtain rfl := eq_of_met? hmet (hcontains.holds h.holds)
    have hreason := site_or_assigned_of_renamed (sites_of options t) hmet h.boundName hg
    -- What stands above an identifier that is met is met.
    have hproperty := mem_occurrences_iff.mp (mem_occurrences_of_isPrefixOf h.holds
      (mem_occurrences_iff.mpr hmet) hcontains.isPrefixOf)
    apply flag_of_expanded h.holds
    apply expanded_of_writesOut (sites_of options t) hproperty h.kind h.shorthand h.standsFor
    rwa [h.boundName, Option.any_some]

/-- `var { x = 1 } = x;` -/
def destructuring : Node :=
  ⟨.program, [("body", .list [some ⟨.variableDeclaration,
    [("kind", .value (.string "var")), ("declarations", .list
      [some ⟨.variableDeclarator,
        [("id", .child ⟨.objectPattern, [("properties", .list
          [some ⟨.property,
            [("shorthand", .value (.bool true)), ("key", .child (Expression.identifier "x")),
             ("value", .child ⟨.assignmentPattern,
              [("left", .child (Expression.identifier "x")),
               ("right", .child ⟨.literal, [("value", .value (.number (.int 1)))]⟩)]⟩)]⟩])]⟩),
         ("init", .child (Expression.identifier "x"))]⟩])]⟩])]⟩

/-- The property becomes `{ x: L = 1 }`. -/
theorem shorthand_stays_truthful_destructuring :
    ∃ property key bound, IsShorthand destructuring property key bound "x" ∧
      (mangle {} destructuring).1.nameAt? key.path = some "x" ∧
      ((mangle {} destructuring).1.at? property.path).map (·.flag "shorthand") = some false ∧
      (mangle {} destructuring).1.nameAt? bound.path = some "L" := by
  let path : Path :=
    [⟨"body", some 0⟩, ⟨"declarations", some 0⟩, ⟨"id", none⟩, ⟨"properties", some 0⟩]
  obtain ⟨n, hn⟩ : ∃ n, destructuring.at? path = some n := ⟨_, rfl⟩
  have hshorthand : IsShorthand destructuring ⟨path, n⟩
      ⟨path ++ [⟨"key", none⟩], Expression.identifier "x"⟩
      ⟨path ++ [⟨"value", none⟩] ++ [⟨"left", none⟩], Expression.identifier "x"⟩ "x" := by
    cases hn
    exact ⟨rfl, rfl, rfl, rfl, rfl, rfl, rfl, rfl⟩
  have hafter : (mangle {} destructuring).1.nameAt? (path ++ [⟨"value", none⟩] ++ [⟨"left", none⟩])
      = some "L" := by
    unfold mangle mangleWith
    rw [Knowledge.of_default]
    decide +kernel
  obtain ⟨hkey, hflag | hbound⟩ := shorthand_stays_truthful {} hshorthand
  · exact ⟨_, _, _, hshorthand, hkey, hflag, hafter⟩
  · rw [hafter] at hbound
    exact absurd hbound (by decide)

end Minifier.Mangle
