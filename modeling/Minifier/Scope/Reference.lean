import Minifier.Scope.Declaration

/-!
# References

Not every identifier refers to a binding. Names of properties, labels, and names that another module
gives are names only. An element name in markup refers to a binding if it names a component,
which is to say if it does not start with a small letter.
-/

namespace Minifier.Scope

/-- A markup name in this place refers to a binding. -/
def isMarkupReference (name : String) (parent : Ancestor) : Bool :=
  match parent.kind, parent.field with
  | .jsxOpeningElement, "name"
  | .jsxClosingElement, "name" => !name.toList.head?.any Char.isLower
  | .jsxMemberExpression, "object" => true
  | _, _ => false

/-- An identifier in this place refers to a binding; `above` are the ancestors of the parent. -/
def isPlainReference (parent : Ancestor) (above : List Ancestor) : Bool :=
  match parent.kind, parent.field with
  | .memberExpression, "property"
  | .property, "key"
  | .propertyDefinition, "key"
  | .methodDefinition, "key"
  | .accessorProperty, "key" => parent.node.flag "computed"
  | .labeledStatement, "label"
  | .breakStatement, "label"
  | .continueStatement, "label"
  | .metaProperty, _
  | .importSpecifier, "imported"
  | .exportSpecifier, "exported"
  | .exportAllDeclaration, "exported" => false
  | .exportSpecifier, "local" => above.head?.all fun exporter => (exporter.node.child? "source").isNone
  | _, _ => true

/-- An identifier of the given kind and name refers, below the ancestors, to a binding that may be
renamed. -/
def isRenamable (kind : Kind) (name : String) (ancestors : List Ancestor) : Bool :=
  match ancestors with
  | [] => false
  | parent :: above =>
    if isFixedBinding ancestors then false
    else if kind = .jsxIdentifier then isMarkupReference name parent
    else isPlainReference parent above

end Minifier.Scope
