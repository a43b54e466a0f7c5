import Mathlib.Data.List.Induction
import Minifier.Tree.Path

/-!
# Laws of positions

How the nodes of a tree stand to each other by position.

* Filling one slot leaves every other slot as it is (`step?_fill_of_ne`).
* The ancestors of a position are the nodes at the shorter paths (`mem_ancestors_iff`), and going one
  step down puts the node that is left in front (`ancestors_concat`).
-/

namespace Minifier

namespace Node

/-! ## Filling a slot -/

@[simp] theorem kind_fill (n : Node) (step : Step) (content : Option Node) :
    (n.fill step content).kind = n.kind := by
  obtain ⟨field, index⟩ := step
  cases index with
  | none => rfl
  | some i =>
      simp only [fill]
      split <;> rfl

/-- A field that is not the one of the slot keeps its content. -/
theorem get?_fill_of_ne {n : Node} {step : Step} {content : Option Node} {name : String}
    (h : name ≠ step.field) : (n.fill step content).get? name = n.get? name := by
  obtain ⟨field, index⟩ := step
  cases index with
  | none => exact get?_set_of_ne h
  | some i =>
      simp only [fill]
      split
      · exact get?_set_of_ne h
      · rfl

/-- A step only reads the field that it goes through. -/
theorem step?_congr {n m : Node} {step : Step} (h : n.get? step.field = m.get? step.field) :
    n.step? step = m.step? step := by
  unfold step? child? slots?
  rw [h]

theorem step?_fill_of_ne {n c : Node} {step other : Step} (h : n.step? step = some c)
    (hne : other ≠ step) (content : Option Node) :
    (n.fill step content).step? other = n.step? other := by
  by_cases hfield : other.field = step.field
  · obtain ⟨field, index⟩ := step
    obtain ⟨field', index'⟩ := other
    have hfield : field' = field := hfield
    subst hfield
    have hindex : index' ≠ index := fun he => hne (by rw [he])
    cases index with
    | none =>
        -- The field holds one child, so that there is no slot of a list to go to.
        have hget := child?_eq_some_iff.mp h
        cases index' with
        | none => exact absurd rfl hindex
        | some j =>
            cases content with
            | none => simp [fill, step?, slots?, hget, Field.slots?]
            | some m => simp [fill, step?, slots?, hget, Field.slots?]
    | some i =>
        obtain ⟨slots, hget, _⟩ := step?_slot_eq_some_iff.mp h
        have hslots := slots?_eq_some_iff.mpr hget
        cases index' with
        | none => simp [fill, step?, child?, hslots, hget, Field.child?]
        | some j =>
            have hji : i ≠ j := fun he => hindex (by rw [he])
            have hset : (n.set field' (.list (slots.set i content))).slots? field'
                = some (slots.set i content) := slots?_eq_some_iff.mpr (get?_set_self n _ _)
            simp only [fill, step?, hslots, hset, Option.bind_some]
            rw [List.getElem?_set_ne hji]
  · exact step?_congr (get?_fill_of_ne hfield)

/-- An emptied slot holds no node. -/
theorem step?_fill_none {n c : Node} {step : Step} (h : n.step? step = some c) :
    (n.fill step none).step? step = none := by
  obtain ⟨field, index⟩ := step
  cases index with
  | none => simp [fill, step?, child?, Field.child?]
  | some i =>
      obtain ⟨slots, hget, hslot⟩ := step?_slot_eq_some_iff.mp h
      obtain ⟨hlt, _⟩ := List.getElem?_eq_some_iff.mp hslot
      have hslots := slots?_eq_some_iff.mpr hget
      have hset : (n.set field (.list (slots.set i none))).slots? field
          = some (slots.set i none) := slots?_eq_some_iff.mpr (get?_set_self n _ _)
      simp [fill, step?, hslots, hset, hlt]

/-! ## Text and flags beside the slots -/

theorem text?_congr {n m : Node} {name : String} (h : n.get? name = m.get? name) :
    n.text? name = m.text? name := by
  unfold text? value?
  rw [h]

theorem flag_congr {n m : Node} {name : String} (h : n.get? name = m.get? name) :
    n.flag name = m.flag name := by
  unfold flag value?
  rw [h]

/-- A field that holds a node, or a list, or null, holds no text and no flag. -/
theorem text?_eq_none {n : Node} {name : String}
    (h : ∀ json, n.get? name = some (.value json) → json = .null) : n.text? name = none := by
  unfold text? value?
  cases hget : n.get? name with
  | none => rfl
  | some content =>
      cases content with
      | child c => rfl
      | list slots => rfl
      | value json => rw [h json hget]; rfl

theorem flag_eq_false {n : Node} {name : String}
    (h : ∀ json, n.get? name = some (.value json) → json = .null) : n.flag name = false := by
  unfold flag value?
  cases hget : n.get? name with
  | none => rfl
  | some content =>
      cases content with
      | child c => rfl
      | list slots => rfl
      | value json => rw [h json hget]; rfl

/-- A field with a slot that holds a node holds no value. -/
theorem get?_ne_value_of_step? {n c : Node} {step : Step} (h : n.step? step = some c) (json : Json) :
    n.get? step.field ≠ some (.value json) := by
  obtain ⟨field, index⟩ := step
  cases index with
  | none =>
      rw [child?_eq_some_iff.mp h]
      simp
  | some i =>
      obtain ⟨slots, hget, _⟩ := step?_slot_eq_some_iff.mp h
      rw [hget]
      simp

/-- Filling or emptying a slot writes no value but null. -/
theorem value_of_fill {n c : Node} {step : Step} (h : n.step? step = some c)
    {content : Option Node} {json : Json}
    (hget : (n.fill step content).get? step.field = some (.value json)) : json = .null := by
  obtain ⟨field, index⟩ := step
  cases index with
  | none =>
      cases content with
      | none => simpa [fill] using hget.symm
      | some m => simp [fill] at hget
  | some i =>
      obtain ⟨slots, hslots, _⟩ := step?_slot_eq_some_iff.mp h
      simp [fill, slots?_eq_some_iff.mpr hslots] at hget

theorem text?_fill {n c : Node} {step : Step} (h : n.step? step = some c) (content : Option Node)
    (name : String) : (n.fill step content).text? name = n.text? name := by
  by_cases hname : name = step.field
  · subst hname
    rw [text?_eq_none fun json hget => value_of_fill h hget,
      text?_eq_none fun json hget => absurd hget (get?_ne_value_of_step? h json)]
  · exact text?_congr (get?_fill_of_ne hname)

theorem flag_fill {n c : Node} {step : Step} (h : n.step? step = some c) (content : Option Node)
    (name : String) : (n.fill step content).flag name = n.flag name := by
  by_cases hname : name = step.field
  · subst hname
    rw [flag_eq_false fun json hget => value_of_fill h hget,
      flag_eq_false fun json hget => absurd hget (get?_ne_value_of_step? h json)]
  · exact flag_congr (get?_fill_of_ne hname)

/-! ## Ancestors -/

@[simp] theorem ancestors_nil (t : Node) : t.ancestors [] = [] := rfl

theorem ancestorsFrom_append {n m : Node} {p : Path} (h : n.at? p = some m) (here : Path)
    (above : List Ancestor) (q : Path) :
    n.ancestorsFrom here above (p ++ q)
      = m.ancestorsFrom (here ++ p) (n.ancestorsFrom here above p) q := by
  induction p generalizing n here above with
  | nil =>
      cases h
      rw [List.append_nil]
      rfl
  | cons step p ih =>
      rw [at?_cons] at h
      obtain ⟨child, hstep, hchild⟩ := Option.bind_eq_some_iff.mp h
      simp only [List.cons_append, ancestorsFrom, hstep]
      rw [ih hchild]
      simp

/-- The ancestors of a position below another one start with those in between. -/
theorem ancestors_append {t n : Node} {p : Path} (h : t.at? p = some n) (q : Path) :
    t.ancestors (p ++ q) = n.ancestorsFrom p (t.ancestors p) q := by
  have := ancestorsFrom_append h [] [] q
  rwa [List.nil_append] at this

/-- One step down, the node that is left comes first. -/
theorem ancestors_concat {t n : Node} {p : Path} (h : t.at? p = some n) (step : Step) :
    t.ancestors (p ++ [step]) = ⟨p, n, step⟩ :: t.ancestors p := by
  rw [ancestors_append h]
  simp only [ancestorsFrom]
  cases n.step? step <;> rfl

theorem at?_of_mem_ancestorsFrom {n : Node} {here p : Path} {above : List Ancestor} {a : Ancestor}
    (h : a ∈ n.ancestorsFrom here above p) :
    a ∈ above ∨ ∃ q, a.path = here ++ q ∧ n.at? q = some a.node := by
  induction p generalizing n here above with
  | nil => exact .inl h
  | cons step p ih =>
      have hhere : a ∈ (⟨here, n, step⟩ :: above : List Ancestor) →
          a ∈ above ∨ ∃ q, a.path = here ++ q ∧ n.at? q = some a.node := by
        intro h
        rcases List.mem_cons.mp h with rfl | h
        · exact .inr ⟨[], by simp, rfl⟩
        · exact .inl h
      rw [ancestorsFrom] at h
      cases hstep : n.step? step with
      | none =>
          rw [hstep] at h
          exact hhere h
      | some child =>
          rw [hstep] at h
          rcases ih h with h | ⟨q, hpath, hat⟩
          · exact hhere h
          · exact .inr ⟨step :: q, by rw [hpath]; simp, by rw [at?_cons, hstep]; exact hat⟩

/-- Ancestors stand in the tree, also above a position that does not. -/
theorem at?_of_mem_ancestors {t : Node} {p : Path} {a : Ancestor} (h : a ∈ t.ancestors p) :
    t.at? a.path = some a.node := by
  rcases at?_of_mem_ancestorsFrom h with h | ⟨q, hpath, hat⟩
  · cases h
  · rw [hpath]
    exact hat

/-- The nearest ancestor is the node one step up. -/
theorem eq_of_ancestors_eq_cons {t n : Node} {p : Path} (h : t.at? p = some n) {a : Ancestor}
    {above : List Ancestor} (ha : t.ancestors p = a :: above) :
    p = a.path ++ [a.step] ∧ above = t.ancestors a.path ∧ t.at? a.path = some a.node := by
  induction p using List.reverseRecOn with
  | nil => cases ha
  | append_singleton p step _ =>
      rw [at?_append] at h
      obtain ⟨m, hm, _⟩ := Option.bind_eq_some_iff.mp h
      rw [ancestors_concat hm] at ha
      cases ha
      exact ⟨rfl, rfl, hm⟩

/-- The ancestors of a position are the nodes on the way to it. -/
theorem mem_ancestors_iff {t n : Node} {p : Path} (h : t.at? p = some n) {a : Ancestor} :
    a ∈ t.ancestors p ↔ (a.path ++ [a.step]) <+: p ∧ t.at? a.path = some a.node := by
  induction p using List.reverseRecOn generalizing n with
  | nil => simp
  | append_singleton p step ih =>
      rw [at?_append] at h
      obtain ⟨m, hm, _⟩ := Option.bind_eq_some_iff.mp h
      rw [ancestors_concat hm, List.mem_cons, ih hm, List.prefix_concat_iff]
      constructor
      · rintro (rfl | ⟨hpre, hat⟩)
        · exact ⟨.inl rfl, hm⟩
        · exact ⟨.inr hpre, hat⟩
      · rintro ⟨heq | hpre, hat⟩
        · obtain ⟨hpath, hstep⟩ := List.append_inj' heq rfl
          left
          obtain ⟨path, node, step'⟩ := a
          simp only at hpath hat
          subst hpath
          rw [hm] at hat
          cases hat
          cases hstep
          rfl
        · exact .inr ⟨hpre, hat⟩

/-- They stand at the positions above it. -/
theorem mem_map_path_ancestors_iff {t n : Node} {q : Path} (h : t.at? q = some n) {p : Path} :
    p ∈ (t.ancestors q).map (·.path) ↔ p <+: q ∧ p ≠ q := by
  rw [List.mem_map]
  constructor
  · rintro ⟨a, ha, rfl⟩
    obtain ⟨rest, hrest⟩ := ((mem_ancestors_iff h).mp ha).1
    rw [List.append_assoc] at hrest
    refine ⟨⟨_, hrest⟩, fun heq => ?_⟩
    rw [← heq] at hrest
    simp at hrest
  · rintro ⟨⟨rest, rfl⟩, hne⟩
    cases rest with
    | nil => simp at hne
    | cons step rest =>
        have hbind := h
        rw [at?_append] at hbind
        obtain ⟨m, hm, _⟩ := Option.bind_eq_some_iff.mp hbind
        exact ⟨⟨p, m, step⟩, (mem_ancestors_iff h).mpr ⟨⟨rest, by simp⟩, hm⟩, rfl⟩

/-- Every position has the root among its ancestors, and as the last one. -/
theorem getLast?_ancestors {t n : Node} {p : Path} (h : t.at? p = some n) (hp : p ≠ []) :
    (t.ancestors p).getLast?.map (·.path) = some [] := by
  induction p using List.reverseRecOn generalizing n with
  | nil => exact absurd rfl hp
  | append_singleton p step ih =>
      rw [at?_append] at h
      obtain ⟨m, hm, _⟩ := Option.bind_eq_some_iff.mp h
      rw [ancestors_concat hm]
      cases p with
      | nil => rfl
      | cons first p =>
          have hlast := ih hm (List.cons_ne_nil _ _)
          cases habove : t.ancestors (first :: p) with
          | nil => rw [habove] at hlast; cases hlast
          | cons a above => rw [habove] at hlast; simpa using hlast

/-- Every step of a way has an ancestor. -/
theorem length_ancestors {t n : Node} {p : Path} (h : t.at? p = some n) :
    (t.ancestors p).length = p.length := by
  induction p using List.reverseRecOn generalizing n with
  | nil => rfl
  | append_singleton p step ih =>
      rw [at?_append] at h
      obtain ⟨m, hm, _⟩ := Option.bind_eq_some_iff.mp h
      rw [ancestors_concat hm, List.length_cons, ih hm, List.length_append, List.length_singleton]

/-! ## Taking a node out -/

theorem exists_detach {n m : Node} {q : Path} (h : n.at? q = some m) :
    ∃ rest, n.detach q = some (m, rest) := by
  induction q generalizing n with
  | nil =>
      cases h
      exact ⟨_, rfl⟩
  | cons step q ih =>
      rw [at?_cons] at h
      obtain ⟨c, hstep, hc⟩ := Option.bind_eq_some_iff.mp h
      cases q with
      | nil =>
          cases hc
          exact ⟨n.fill step none, by simp [detach, hstep]⟩
      | cons next q =>
          obtain ⟨left, hleft⟩ := ih hc
          exact ⟨n.fill step (some left), by simp [detach, hstep, hleft]⟩

end Node

end Minifier
