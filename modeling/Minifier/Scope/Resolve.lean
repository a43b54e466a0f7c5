import Minifier.Scope.Visible

/-!
# What a name refers to

While declarations are being renamed, a reference still has the old name of what it refers to.
`Marks` keeps the old names of renamed declarations by position, and `resolve` finds the first
visible binding that has the name or had it.
-/

namespace Minifier.Scope

/-- The positions of renamed declarations, with the names they had. -/
abbrev Marks := List (Path × String)

/-- What a name refers to. -/
inductive Resolution where
  /-- a renamed binding, with its new name -/
  | binding (name : String)
  /-- a binding that still has the name -/
  | shadowed
  | unresolved
deriving DecidableEq, Repr

/-- A way to find what a name used below the ancestors refers to. -/
abbrev Resolver := List Ancestor → String → Marks → Resolution

/-- What the name refers to if it refers to the given binding. -/
def matching? (marks : Marks) (name : String) (binding : Occurrence) : Option Resolution :=
  match Entries.get? marks binding.path with
  | some former => if former = name then binding.node.name?.map .binding else none
  | none => if binding.node.isIdentifierNamed name then some .shadowed else none

/-- The first visible binding decides. -/
def resolve : Resolver := fun ancestors name marks =>
  (ancestors.findSome? fun a =>
    a.occurrence.visibleBindings.findSome? (matching? marks name)).getD .unresolved

/-- The resolution is that of the first match among all visible bindings. -/
theorem resolve_eq (ancestors : List Ancestor) (name : String) (marks : Marks) :
    resolve ancestors name marks =
      ((visible ancestors).findSome? (matching? marks name)).getD .unresolved := by
  unfold resolve visible
  congr 1
  induction ancestors with
  | nil => rfl
  | cons a rest ih =>
    rw [List.flatMap_cons, List.findSome?_append, ← ih, List.findSome?_cons]
    cases a.occurrence.visibleBindings.findSome? (matching? marks name) <;> rfl

/-- The name refers to a binding of the tree, when no declaration has been renamed. -/
def isBound (ancestors : List Ancestor) (name : String) : Bool :=
  resolve ancestors name [] != .unresolved

end Minifier.Scope
