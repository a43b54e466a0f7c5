import Minifier.Mangle.Assignment
import Minifier.Scope.Reference

/-!
# Mangling

`mangle` gives the candidates of a tree their new names, in two passes over the identifiers.

1. Declarations that are not whole parameters are renamed, and their old names are kept as marks.
2. Whole parameters are renamed when they are met, and every other identifier that refers to a binding is
   resolved and takes the new name of what it refers to. A shorthand property `{ x }` whose identifier
   may change becomes `{ x: x }`.

No pass adds, moves or removes a node.
-/

namespace Minifier.Mangle

/-- A tree in which some declarations are renamed already. -/
structure Progress where
  tree : Node
  /-- the old names of renamed declarations -/
  marks : Scope.Marks := []
  /-- how many references were renamed -/
  references : Nat := 0

/-- What a run looks up at each node. -/
structure Knowledge where
  sites : List Site
  assignments : List Assignment

namespace Knowledge

/-- The site at a position. -/
def site? (k : Knowledge) (path : Path) : Option Site := k.sites.find? (·.path == path)

/-- A candidate of this name was given a new name. -/
def isAssigned (k : Knowledge) (name : String) : Bool :=
  k.assignments.any (·.candidate.name == name)

end Knowledge

namespace Progress

/-- Rename the declaration at a site, if its candidate was given a name. -/
def declare (p : Progress) (k : Knowledge) (site : Site) : Progress :=
  match generated? k.assignments site.candidate with
  | some name =>
    { p with
      tree := p.tree.modifyAt (·.setName name) site.path
      marks := Entries.set p.marks site.path site.candidate.name }
  | none => p

/-- Rename the reference at a position. -/
def refer (p : Progress) (path : Path) (name : String) : Progress :=
  { p with tree := p.tree.modifyAt (·.setName name) path, references := p.references + 1 }

/-- The identifier that a shorthand property stands for, before any default value. -/
def shorthandBinding? (property : Occurrence) : Option Occurrence :=
  (property.child? "value").bind fun value =>
    if value.node.kind = .assignmentPattern then value.child? "left" else some value

/-- Write a shorthand property out if its identifier is renamed or may be. -/
def expand (p : Progress) (k : Knowledge) (property : Occurrence) : Progress :=
  if property.node.flag "shorthand" then
    match shorthandBinding? property with
    | some binding =>
      if (Entries.get? p.marks binding.path).isSome || (k.site? binding.path).isSome
          || binding.node.name?.any k.isAssigned then
        { p with tree := p.tree.modifyAt (·.setValue "shorthand" (.bool false)) property.path }
      else p
    | none => p
  else p

/-- The new name of what the identifier refers to. The identifier's own slot is empty while the
bindings above it are looked at. -/
def target? (p : Progress) (k : Knowledge) (resolver : Scope.Resolver) (o : Occurrence) :
    Option String := do
  let name ← o.node.name?
  let (_, rest) ← p.tree.detach o.path
  let ancestors := rest.ancestors o.path
  if k.isAssigned name && Scope.isRenamable o.node.kind name ancestors then
    match resolver ancestors name p.marks with
    | .binding generated => some generated
    | _ => none
  else none

/-- Rename an identifier that is met in the second pass. -/
def rename (p : Progress) (k : Knowledge) (resolver : Scope.Resolver) (o : Occurrence) : Progress :=
  match k.site? o.path with
  | some site => if site.direct then p.declare k site else p
  | none =>
    if (Entries.get? p.marks o.path).isSome then p
    else
      match p.target? k resolver o with
      | some generated => p.refer o.path generated
      | none => p

/-- What the second pass does at a position. -/
def visit (k : Knowledge) (resolver : Scope.Resolver) (p : Progress) (path : Path) : Progress :=
  match p.tree.at? path with
  | some node =>
    if node.kind = .property then p.expand k ⟨path, node⟩
    else if isNamed node then p.rename k resolver ⟨path, node⟩
    else p
  | none => p

end Progress

/-- What a mangling run did. -/
structure Plan where
  assignments : List Assignment
  /-- how many declarations were renamed -/
  declarations : Nat
  /-- how many references were renamed -/
  references : Nat
deriving DecidableEq, Repr

/-- The names that were given to candidates of a name. -/
def Plan.generatedFor (plan : Plan) (name : String) : List String :=
  (plan.assignments.filter (·.candidate.name == name)).map (·.generated)

/-- What is known of a tree before it is changed. -/
def Knowledge.of (options : Options) (tree : Node) : Knowledge where
  sites := Mangle.sites tree
  assignments := assign options (census tree) (candidates (Mangle.sites tree))

/-- The first pass: rename the declarations that are not whole parameters. -/
def declareAll (k : Knowledge) (tree : Node) : Progress :=
  (k.sites.filter (!·.direct)).foldl (·.declare k ·) { tree }

/-- The second pass: rename what is left, position by position. -/
def referAll (k : Knowledge) (resolver : Scope.Resolver) (p : Progress) : Progress :=
  (p.tree.occurrences.map (·.path)).foldl (Progress.visit k resolver) p

/-- Mangle a tree, with a given way to resolve names. -/
def mangleWith (resolver : Scope.Resolver) (options : Options) (tree : Node) : Node × Plan :=
  let k := Knowledge.of options tree
  let p := referAll k resolver (declareAll k tree)
  (p.tree, ⟨k.assignments, p.marks.length, p.references⟩)

/-- Mangle a tree. -/
def mangle (options : Options) (tree : Node) : Node × Plan := mangleWith Scope.resolve options tree

end Minifier.Mangle
