import Minifier.Scope.Declaration
import Minifier.Scope.Resolve

/-!
# What there is to rename

Before anything is renamed, the tree is searched for the names that occur in it (`census`) and for the
identifiers that declare bindings which may be renamed (`sites`). All sites of one name in one scope
declare the same *candidate*.
-/

namespace Minifier.Mangle

/-- A binding that may be renamed: its name, and the position of the scope that owns it. -/
structure Candidate where
  name : String
  scope : Path
deriving DecidableEq, Repr

/-- An identifier that declares a candidate. -/
structure Site where
  path : Path
  candidate : Candidate
  /-- the identifier is a whole parameter -/
  direct : Bool
deriving DecidableEq, Repr

/-- The node carries the name of a binding or of a part of a program: an identifier, plain or in
markup. -/
def isNamed (n : Node) : Bool := n.kind == .identifier || n.kind == .jsxIdentifier

/-- The names of all identifiers of a tree. -/
def census (tree : Node) : List String :=
  tree.occurrences.filterMap fun o => if isNamed o.node then o.node.name? else none

/-- The site that an identifier of a tree is, if it declares a candidate. -/
def site? (tree : Node) (o : Occurrence) : Option Site := do
  if o.node.kind ≠ .identifier then none
  let (binding, scope) ← Scope.classify? (tree.ancestors o.path)
  let name ← o.node.name?
  some ⟨o.path, ⟨name, scope⟩, binding == .parameter true⟩

/-- The sites of a tree, in the order of a traversal. -/
def sites (tree : Node) : List Site := tree.occurrences.filterMap (site? tree)

/-- The candidates of a list of sites, in the order of their first sites. -/
def candidates (sites : List Site) : List Candidate := (sites.map (·.candidate)).eraseDups

end Minifier.Mangle
