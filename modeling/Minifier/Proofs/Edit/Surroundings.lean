import Minifier.Edit.Walk

/-!
# What lies around a position

`Surroundings` are a tree with one slot taken out: the parents of the slot, nearest first, each with
the slot below it empty. They are the counterpart of a `Path`, and carry the rest of the tree along with
the steps:

* `wrap` puts a node into the slot and gives the whole tree,
* `root` is the whole tree with the slot left empty,
* `path` are the steps from the root to the slot.

The laws below say that whatever is done to `wrap around n` at the position `path around` is done to
`n` alone (`at?_wrap`, `modifyAt_wrap`), and that taking the node out and putting one in is going
over to `root` and back (`detach_wrap`, `attach_root`).
-/

namespace Minifier

/-- A parent of a slot, with the slot empty, and the step down to the slot. -/
structure Frame where
  parent : Node
  step : Step

/-- The slot is one that a node was taken out of. -/
def Frame.Open (f : Frame) : Prop :=
  ∃ n c : Node, n.step? f.step = some c ∧ f.parent = n.fill f.step none

/-- The parents of a slot, nearest first. -/
abbrev Surroundings := List Frame

namespace Surroundings

/-- The steps from the root to the slot. -/
def path (around : Surroundings) : Path := (around.map (·.step)).reverse

/-- The tree with a node in the slot. -/
def wrap : Surroundings → Node → Node
  | [], n => n
  | f :: around, n => wrap around (f.parent.fill f.step (some n))

/-- The tree with the slot empty. -/
def root : Surroundings → Node
  | [] => Node.placeholder
  | f :: around => wrap around f.parent

/-- Every parent has a slot to put the node below it back into. -/
def Open (around : Surroundings) : Prop := ∀ f ∈ around, f.Open

@[simp] theorem path_nil : path [] = [] := rfl

theorem path_cons (f : Frame) (around : Surroundings) :
    path (f :: around) = path around ++ [f.step] := by
  simp [path]

theorem Open.head {f : Frame} {around : Surroundings} (h : Open (f :: around)) : f.Open :=
  h f (List.mem_cons_self ..)

theorem Open.tail {f : Frame} {around : Surroundings} (h : Open (f :: around)) : Open around :=
  fun g hg => h g (List.mem_cons_of_mem _ hg)

theorem Open.cons {f : Frame} {around : Surroundings} (hf : f.Open) (h : Open around) :
    Open (f :: around) := by
  intro g hg
  rcases List.mem_cons.mp hg with rfl | hg
  · exact hf
  · exact h g hg

end Surroundings

/-- A slot that a node was taken out of holds what it is filled with. -/
theorem Frame.Open.step?_fill {f : Frame} (h : f.Open) (m : Node) :
    (f.parent.fill f.step (some m)).step? f.step = some m := by
  obtain ⟨n, c, hstep, hparent⟩ := h
  rw [hparent, Node.fill_fill]
  exact Node.step?_fill hstep m

/-- Emptying a slot that is empty changes nothing. -/
theorem Frame.Open.fill_none {f : Frame} (h : f.Open) : f.parent.fill f.step none = f.parent := by
  obtain ⟨n, c, _, hparent⟩ := h
  rw [hparent, Node.fill_fill]

namespace Surroundings

/-! ### Acting inside

Each law is an induction on the surroundings: the outermost step goes into the path that is left to
follow, so the path is generalized to any `q` below the slot. -/

theorem at?_wrap {around : Surroundings} (h : around.Open) (n : Node) (q : Path) :
    (around.wrap n).at? (around.path ++ q) = n.at? q := by
  induction around generalizing n q with
  | nil => rfl
  | cons f around ih =>
      rw [path_cons, List.append_assoc, wrap, ih h.tail]
      show (f.parent.fill f.step (some n)).at? (f.step :: q) = n.at? q
      rw [Node.at?_cons, h.head.step?_fill]
      rfl

theorem modifyAt_wrap {around : Surroundings} (h : around.Open) (n : Node) (g : Node → Node)
    (q : Path) :
    (around.wrap n).modifyAt g (around.path ++ q) = around.wrap (n.modifyAt g q) := by
  induction around generalizing n q with
  | nil => rfl
  | cons f around ih =>
      rw [path_cons, List.append_assoc, wrap, ih h.tail, wrap]
      congr 1
      show (f.parent.fill f.step (some n)).modifyAt g (f.step :: q) = _
      simp only [Node.modifyAt, h.head.step?_fill, Node.fill_fill]

theorem detach_wrap_append {around : Surroundings} (h : around.Open) {n taken left : Node} {s : Step}
    {q : Path} (hd : n.detach (s :: q) = some (taken, left)) :
    (around.wrap n).detach (around.path ++ s :: q) = some (taken, around.wrap left) := by
  induction around generalizing n left s q with
  | nil => exact hd
  | cons f around ih =>
      rw [path_cons, List.append_assoc, wrap, wrap]
      apply ih h.tail
      show (f.parent.fill f.step (some n)).detach (f.step :: s :: q) = _
      simp [Node.detach, h.head.step?_fill, hd]

theorem attach_wrap_append {around : Surroundings} (h : around.Open) (n node : Node) (s : Step)
    (q : Path) :
    (around.wrap n).attach node (around.path ++ s :: q) = around.wrap (n.attach node (s :: q)) := by
  induction around generalizing n s q with
  | nil => rfl
  | cons f around ih =>
      rw [path_cons, List.append_assoc, wrap, wrap]
      show (wrap around _).attach node (path around ++ f.step :: s :: q) = _
      rw [ih h.tail]
      simp only [Node.attach, h.head.step?_fill, Node.fill_fill]

/-! ### At the slot itself -/

/-- Taking the node of the slot out leaves the tree with the slot empty. -/
theorem detach_wrap {around : Surroundings} (h : around.Open) (n : Node) :
    (around.wrap n).detach around.path = some (n, around.root) := by
  cases around with
  | nil => rfl
  | cons f around =>
      rw [path_cons, wrap]
      apply detach_wrap_append h.tail
      simp [Node.detach, h.head.step?_fill, h.head.fill_none]

/-- Putting a node into the empty slot gives the tree with that node. -/
theorem attach_root {around : Surroundings} (h : around.Open) (n : Node) :
    around.root.attach n around.path = around.wrap n := by
  cases around with
  | nil => rfl
  | cons f around =>
      rw [path_cons, root, attach_wrap_append h.tail]
      rfl

/-- The node at the slot. -/
theorem at?_path {around : Surroundings} (h : around.Open) (n : Node) :
    (around.wrap n).at? around.path = some n := by
  simpa using at?_wrap h n []

/-- Changing the node at the slot. -/
theorem modifyAt_path {around : Surroundings} (h : around.Open) (n : Node) (g : Node → Node) :
    (around.wrap n).modifyAt g around.path = around.wrap (g n) := by
  simpa [Node.modifyAt] using modifyAt_wrap h n g []

end Surroundings

end Minifier
