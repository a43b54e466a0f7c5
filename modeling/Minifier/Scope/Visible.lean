import Minifier.Scope.Pattern

/-!
# Visible bindings

Which bindings an ancestor makes visible below it, in the order in which they are looked at.

* A function shows its parameters, the variables hoisted out of its body, and its own name.
* A list of statements shows what its statements declare, and a program in addition the variables
  hoisted out of all of it.
* A loop shows what its head declares, a class its name, and a catch clause its parameter.
-/

namespace Minifier

namespace Occurrence

/-- The identifiers bound by the declarators of a declaration of variables. -/
def declared (o : Occurrence) : List Occurrence :=
  (o.children "declarations").flatMap fun declarator =>
    ((declarator.child? "id").map bindings).getD []

/-- A node of this kind keeps the variables below it to itself. -/
def isHoistBarrier (kind : Kind) : Bool :=
  kind.isFunction || kind.isClass || kind == .staticBlock

/-- The identifiers of the `var` variables declared anywhere in a tree, but not in functions, classes and
static blocks below its root. -/
def hoisted (o : Occurrence) : List Occurrence :=
  (if o.node.kind = .variableDeclaration ∧ o.node.text? "kind" = some "var" then o.declared
    else []) ++
    o.visited.attach.flatMap fun ⟨child, _⟩ =>
      if isHoistBarrier child.node.kind then [] else child.hoisted
termination_by o.node.size
decreasing_by exact size_visited_lt ‹_›

/-- The identifiers that a statement binds for the list that it stands in. -/
def statementBindings (o : Occurrence) : List Occurrence :=
  match o.node.kind with
  | .variableDeclaration => o.declared
  | .functionDeclaration | .classDeclaration => (o.child? "id").toList
  | .exportNamedDeclaration | .exportDefaultDeclaration =>
    match _h : o.child? "declaration" with
    | some declaration => declaration.statementBindings
    | none => []
  | .importDeclaration =>
    (o.children "specifiers").filterMap fun specifier => specifier.child? "local"
  | _ => []
termination_by o.node.size
decreasing_by exact size_child_lt ‹_›

/-- The bindings that a node makes visible below it. -/
def visibleBindings (o : Occurrence) : List Occurrence :=
  if o.node.kind.isFunction then
    (o.children "params").flatMap bindings ++ ((o.child? "body").map hoisted).getD [] ++
      (o.child? "id").toList
  else if o.node.kind.isClass then (o.child? "id").toList
  else
    match o.node.kind with
    | .program => (o.children "body").flatMap statementBindings ++ o.hoisted
    | .blockStatement | .staticBlock => (o.children "body").flatMap statementBindings
    | .switchStatement =>
      (o.children "cases").flatMap fun arm => (arm.children "consequent").flatMap statementBindings
    | .forStatement => ((o.child? "init").map statementBindings).getD []
    | .forInStatement | .forOfStatement => ((o.child? "left").map statementBindings).getD []
    | .catchClause => ((o.child? "param").map bindings).getD []
    | _ => []

end Occurrence

/-- An ancestor as an occurrence. -/
def Ancestor.occurrence (a : Ancestor) : Occurrence := ⟨a.path, a.node⟩

/-- The bindings visible below the ancestors, nearest first. -/
def Scope.visible (ancestors : List Ancestor) : List Occurrence :=
  ancestors.flatMap fun a => a.occurrence.visibleBindings

end Minifier
