import Minifier.Scope.Pattern

/-!
# Declarations

Which identifiers declare a binding, and in which scope. `classify?` answers for the bindings that may
be renamed: parameters, variables, and the names of declared functions and classes. The others
(`isFixedBinding`) are catch parameters, imports, and the names of function and class
expressions.
-/

namespace Minifier.Scope

/-- How an identifier declares a binding. -/
inductive BindingSite where
  /-- as a parameter; `direct` if it is the whole parameter and not part of a pattern -/
  | parameter (direct : Bool)
  /-- as a variable, or as part of a pattern of variables -/
  | declarator
  /-- as the name of a function or class declaration -/
  | declaration
deriving DecidableEq, Repr

/-- A node of this kind owns all bindings declared below it that no nearer scope owns. -/
def isFunctionScope (kind : Kind) : Bool := kind.isFunction || kind == .program

/-- An ancestor owns the lexical bindings below it; `parent` is the next ancestor. The block that
is the body of a function is no scope of its own. -/
def isBlockScope (a : Ancestor) (parent : Option Ancestor) : Bool :=
  match a.kind with
  | .blockStatement => !parent.any fun p => p.kind.isFunction && p.field == "body"
  | .staticBlock | .switchStatement | .forStatement | .forInStatement | .forOfStatement => true
  | _ => false

/-- The scope that owns a binding declared below the ancestors: the nearest function or program and, for
a lexical binding, the nearest block if that is nearer. -/
def owner? (lexical : Bool) : List Ancestor → Option Path
  | [] => none
  | a :: rest =>
    if isFunctionScope a.kind || (lexical && isBlockScope a rest.head?) then some a.path
    else owner? lexical rest

/-- The owner of a binding declared below the ancestors, or the root for want of one. -/
def ownerOrRoot? (ancestors : List Ancestor) (lexical : Bool) (above : List Ancestor) :
    Option Path :=
  (owner? lexical above).or (ancestors.getLast?.map (·.path))

/-- How an identifier below the ancestors declares a binding that may be renamed, and the scope that owns
it. -/
def classify? (ancestors : List Ancestor) : Option (BindingSite × Path) :=
  let depth := patternDepth ancestors
  match ancestors.drop depth with
  | [] => none
  | binder :: rest =>
    if binder.kind.isFunction && binder.field == "params" then
      some (.parameter (depth == 0), binder.path)
    else
      match binder.kind, binder.field, rest with
      | .variableDeclarator, "id", declaration :: above =>
        let lexical := declaration.node.text? "kind" != some "var"
        (ownerOrRoot? ancestors lexical above).map (.declarator, ·)
      | .functionDeclaration, "id", above | .classDeclaration, "id", above =>
        if depth == 0 then (ownerOrRoot? ancestors true above).map (.declaration, ·) else none
      | _, _, _ => none

/-- The identifier below the ancestors declares a binding that is never renamed. -/
def isFixedBinding (ancestors : List Ancestor) : Bool :=
  match (ancestors.drop (patternDepth ancestors)).head? with
  | none => false
  | some binder =>
    match binder.kind, binder.field with
    | .catchClause, "param"
    | .functionExpression, "id"
    | .classExpression, "id"
    | .importSpecifier, "local"
    | .importDefaultSpecifier, "local"
    | .importNamespaceSpecifier, "local" => true
    | _, _ => false

end Minifier.Scope
