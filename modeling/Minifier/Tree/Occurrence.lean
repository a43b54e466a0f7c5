import Minifier.Tree.Path

/-!
# Nodes where they stand

An `Occurrence` is a node together with its position. Going down from an occurrence keeps track of
the position (`child?`, `children`, `visited`).

`Node.occurrences` lists the nodes that a traversal meets. A traversal follows only the fields that the
kind of a node lists (`Kind.fields`), in that order, and meets a node before what is below it. Nodes
under an unknown kind, in an opaque value or in any other field are not met.
-/

namespace Minifier

/-- A node at a position. -/
structure Occurrence where
  path : Path
  node : Node

namespace Occurrence

/-- The occurrence at the end of an edge. -/
def along (o : Occurrence) (edge : Step × Node) : Occurrence := ⟨o.path ++ [edge.1], edge.2⟩

/-- The occurrence of the single child in a field. -/
def child? (o : Occurrence) (field : String) : Option Occurrence :=
  (o.node.child? field).map fun node => o.along (⟨field, none⟩, node)

/-- The occurrences of the children in a list field, without the holes. -/
def children (o : Occurrence) (field : String) : List Occurrence :=
  ((o.node.slots? field).getD []).zipIdx.filterMap fun (slot, i) =>
    slot.map fun node => o.along (⟨field, some i⟩, node)

/-- The occurrences one step down through the fields that a traversal follows. -/
def visited (o : Occurrence) : List Occurrence := o.node.visited.map o.along

theorem size_child_lt {o c : Occurrence} {field : String} (h : o.child? field = some c) :
    c.node.size < o.node.size := by
  obtain ⟨node, hnode, rfl⟩ := Option.map_eq_some_iff.mp h
  exact Node.size_child_lt hnode

theorem size_children_lt {o c : Occurrence} {field : String} (h : c ∈ o.children field) :
    c.node.size < o.node.size := by
  obtain ⟨⟨slot, i⟩, hmem, hslot⟩ := List.mem_filterMap.mp h
  obtain ⟨node, hnode, rfl⟩ := Option.map_eq_some_iff.mp hslot
  have hin : node ∈ o.node.children field :=
    List.mem_filterMap.mpr ⟨slot, List.fst_mem_of_mem_zipIdx hmem, hnode⟩
  exact Node.size_children_lt hin

theorem size_visited_lt {o c : Occurrence} (h : c ∈ o.visited) :
    c.node.size < o.node.size := by
  obtain ⟨edge, hedge, rfl⟩ := List.mem_map.mp h
  exact Node.size_visited_lt hedge

/-- An occurrence and all that a traversal meets below it. -/
def below (o : Occurrence) : List Occurrence :=
  o :: o.visited.attach.flatMap fun ⟨child, _⟩ => child.below
termination_by o.node.size
decreasing_by exact size_visited_lt ‹_›

theorem below_eq (o : Occurrence) : o.below = o :: o.visited.flatMap below := by
  rw [below]
  simp only [List.flatMap_subtype, List.unattach_attach]

end Occurrence

/-- The nodes of a tree in the order in which a traversal meets them. -/
def Node.occurrences (n : Node) : List Occurrence := Occurrence.below ⟨[], n⟩

end Minifier
