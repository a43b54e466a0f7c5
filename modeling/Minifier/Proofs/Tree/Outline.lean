import Minifier.Proofs.Entries
import Minifier.Proofs.Tree.Position

/-!
# Outlines

The *outline* of a node is all there is to it but its children: its kind, the names of its fields in
order, the opaque values, and which slots are filled. The *sketch* of a tree tells the outline of the node
at each position.

Passes that move no node are described by sketches: changing the node at one position, but not its
children, changes the sketch there and nowhere else (`sketch_modifyAt`).
-/

namespace Minifier

/-- The content of a field without the nodes in it. -/
def Field.blank : Field Node → Field Node
  | .child _ => .child Node.placeholder
  | .list slots => .list (slots.map (·.map fun _ => Node.placeholder))
  | .value json => .value json

namespace Node

/-- The node without its children. -/
def outline (n : Node) : Node := ⟨n.kind, n.fields.map fun entry => (entry.1, entry.2.blank)⟩

@[simp] theorem kind_outline (n : Node) : n.outline.kind = n.kind := rfl

theorem get?_outline (n : Node) (name : String) :
    n.outline.get? name = (n.get? name).map Field.blank :=
  Entries.get?_mapValues Field.blank n.fields name

@[simp] theorem value?_outline (n : Node) (name : String) :
    n.outline.value? name = n.value? name := by
  unfold value?
  rw [get?_outline]
  cases n.get? name with
  | none => rfl
  | some content => cases content <;> rfl

@[simp] theorem text?_outline (n : Node) (name : String) : n.outline.text? name = n.text? name := by
  unfold text?
  rw [value?_outline]

@[simp] theorem flag_outline (n : Node) (name : String) : n.outline.flag name = n.flag name := by
  unfold flag
  rw [value?_outline]

@[simp] theorem name?_outline (n : Node) : n.outline.name? = n.name? := text?_outline n "name"

theorem outline_set (n : Node) (name : String) (content : Field Node) :
    (n.set name content).outline = n.outline.set name content.blank :=
  congrArg (Node.mk n.kind) (Entries.set_mapValues Field.blank n.fields name content).symm

theorem outline_setValue (n : Node) (name : String) (json : Json) :
    (n.setValue name json).outline = n.outline.setValue name json :=
  outline_set n name (.value json)

theorem outline_setName (n : Node) (name : String) :
    (n.setName name).outline = n.outline.setName name :=
  outline_setValue n "name" (.string name)

/-- Putting another node into a filled slot does not change the outline. -/
theorem outline_fill {n c : Node} {step : Step} (h : n.step? step = some c) (m : Node) :
    (n.fill step (some m)).outline = n.outline := by
  obtain ⟨field, index⟩ := step
  cases index with
  | none =>
      have hget := child?_eq_some_iff.mp h
      show (n.set field (.child m)).outline = _
      rw [outline_set]
      apply set_eq_self
      rw [get?_outline, hget]
      rfl
  | some i =>
      obtain ⟨slots, hget, hslot⟩ := step?_slot_eq_some_iff.mp h
      obtain ⟨hlt, hitem⟩ := List.getElem?_eq_some_iff.mp hslot
      simp only [fill, slots?_eq_some_iff.mpr hget]
      rw [outline_set]
      apply set_eq_self
      rw [get?_outline, hget]
      have hsame : (slots.set i (some m)).map (·.map fun _ => placeholder)
          = slots.map (·.map fun _ => placeholder) := by
        apply List.ext_getElem?
        intro j
        by_cases hj : i = j
        · subst hj
          simp [hlt, hitem]
        · simp [List.getElem?_set_ne hj]
      exact congrArg (fun list => some (Field.list list)) hsame.symm

/-! ## Changes that keep the children -/

/-- Writing a value over a value keeps the children. -/
theorem step?_setValue {n : Node} {name : String} {json : Json} (h : n.value? name = some json)
    (json' : Json) (step : Step) : (n.setValue name json').step? step = n.step? step := by
  by_cases hfield : step.field = name
  · have hget : n.get? name = some (.value json) := by
      unfold value? at h
      cases hget : n.get? name with
      | none => rw [hget] at h; cases h
      | some content =>
          rw [hget] at h
          cases content with
          | child c => cases h
          | list slots => cases h
          | value j => cases h; rfl
    obtain ⟨field, index⟩ := step
    have hfield : field = name := hfield
    subst hfield
    cases index with
    | none => simp [step?, child?, setValue, hget, Field.child?]
    | some i => simp [step?, slots?, setValue, hget, Field.slots?]
  · exact step?_congr (get?_set_of_ne hfield)

theorem step?_setName {n : Node} {old : String} (h : n.name? = some old) (name : String)
    (step : Step) : (n.setName name).step? step = n.step? step := by
  unfold name? text? at h
  obtain ⟨json, hjson, _⟩ := Option.bind_eq_some_iff.mp h
  exact step?_setValue hjson _ step

theorem step?_setFlag {n : Node} {name : String} (h : n.flag name = true) (json : Json)
    (step : Step) : (n.setValue name json).step? step = n.step? step := by
  unfold flag at h
  cases hvalue : n.value? name with
  | none => rw [hvalue] at h; cases h
  | some old => exact step?_setValue hvalue json step

/-! ## Sketches -/

/-- The outline of the node at a position. -/
def sketch (t : Node) (p : Path) : Option Node := (t.at? p).map outline

theorem at?_of_sketch {t n : Node} {p : Path} (h : t.sketch p = some n) :
    ∃ m, t.at? p = some m ∧ m.outline = n := Option.map_eq_some_iff.mp h

theorem sketch_modifyAt {t n : Node} {p : Path} (h : t.at? p = some n) {f : Node → Node}
    (hf : ∀ step, (f n).step? step = n.step? step) (q : Path) :
    (t.modifyAt f p).sketch q = if q = p then some (f n).outline else t.sketch q := by
  induction p generalizing t q with
  | nil =>
      cases h
      cases q with
      | nil => rfl
      | cons step q =>
          rw [if_neg (List.cons_ne_nil step q)]
          unfold sketch
          rw [at?_cons, at?_cons]
          show (((f n).step? step).bind _).map _ = _
          rw [hf]
  | cons step p ih =>
      rw [at?_cons] at h
      obtain ⟨child, hstep, hchild⟩ := Option.bind_eq_some_iff.mp h
      simp only [modifyAt, hstep]
      cases q with
      | nil =>
          rw [if_neg (List.cons_ne_nil step p).symm]
          exact congrArg some (outline_fill hstep _)
      | cons other q =>
          unfold sketch
          rw [at?_cons, at?_cons]
          by_cases hother : other = step
          · subst hother
            rw [step?_fill hstep, hstep]
            simp only [Option.bind_some, List.cons.injEq, true_and]
            exact ih hchild q
          · rw [step?_fill_of_ne hstep hother, if_neg fun he => hother (List.cons.inj he).1]

end Node

end Minifier
