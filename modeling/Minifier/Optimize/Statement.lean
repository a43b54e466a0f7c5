import Minifier.Tree.Path

/-!
# Statements

What the optimizer has to know of statements: which are directives, which declare bindings, and what is
left of a statement that is never reached.
-/

namespace Minifier.Optimize

/-- The text of a directive: of an expression statement that is a string. -/
def directive? (statement : Node) : Option String :=
  if statement.kind = .expressionStatement then
    (statement.child? "expression").bind fun expression =>
      if expression.kind = .literal then expression.text? "value" else none
  else none

/-- The ancestors show the body of a program or of a function. -/
def isProgramBody : List Ancestor → Bool
  | [] => false
  | parent :: above =>
    match parent.kind with
    | .program => true
    | .blockStatement => above.head?.any fun a => a.kind.isFunction && a.field == "body"
    | _ => false

/-- A statement below the ancestors, in the given slot of its list, follows only directives of a
program or a function. -/
def inPrologue (ancestors : List Ancestor) (index : Nat) : Bool :=
  isProgramBody ancestors &&
    match ancestors.head?.bind (·.node.slots? "body") with
    | some slots => (slots.take index).all fun slot => slot.any fun s => (directive? s).isSome
    | none => false

/-- The block declares a binding of its own. -/
def hasLexical (block : Node) : Bool :=
  (block.children "body").any fun statement =>
    match statement.kind with
    | .variableDeclaration => statement.text? "kind" != some "var"
    | .classDeclaration | .functionDeclaration => true
    | _ => false

/-- The node is a declaration of `var` variables. -/
def isVarDeclaration (n : Node) : Bool :=
  n.kind == .variableDeclaration && n.text? "kind" == some "var"

mutual

/-- A `var` variable is declared in the tree, outside of functions. -/
def declaresVar : Node → Bool
  | ⟨kind, fields⟩ =>
    isVarDeclaration ⟨kind, fields⟩ || (!kind.isFunction && fieldsDeclareVar fields)

/-- A `var` variable is declared in one of the fields. -/
def fieldsDeclareVar : List (String × Field Node) → Bool
  | [] => false
  | (_, field) :: rest => fieldDeclaresVar field || fieldsDeclareVar rest

/-- A `var` variable is declared in the field. -/
def fieldDeclaresVar : Field Node → Bool
  | .child node => declaresVar node
  | .list slots => slotsDeclareVar slots
  | .value _ => false

/-- A `var` variable is declared in one of the slots. -/
def slotsDeclareVar : List (Option Node) → Bool
  | [] => false
  | none :: rest => slotsDeclareVar rest
  | some node :: rest => declaresVar node || slotsDeclareVar rest

end

/-- Every declarator declares one identifier, not a pattern. -/
def isPlainDeclaration (declarators : List (Option Node)) : Bool :=
  (declarators.filterMap id).all fun declarator =>
    (declarator.child? "id").any (·.kind == .identifier)

/-- What is left of a statement that is never reached. Functions stay, and so do `var` variables, without
their values unless a pattern needs them. -/
def unreachableRemainder? (statement : Node) : Option Node :=
  if statement.kind = .functionDeclaration then some statement
  else if isVarDeclaration statement then
    (statement.slots? "declarations").map fun declarators =>
      if isPlainDeclaration declarators then
        statement.set "declarations"
          (.list (declarators.map (·.map (·.setValue "init" .null))))
      else statement
  else none

/-- The slot holds a return statement. -/
def isReturn (slot : Option Node) : Bool := slot.any (·.kind == .returnStatement)

/-- Statements up to the first return, and what is left of the others. -/
def pruneStatements : List (Option Node) → List (Option Node)
  | [] => []
  | slot :: rest =>
    if isReturn slot then
      slot :: ((rest.filterMap id).filterMap unreachableRemainder?).map some
    else slot :: pruneStatements rest

/-- Drop what is never reached from the body of a block. -/
def prune (block : Node) : Node :=
  match block.slots? "body" with
  | some slots => block.set "body" (.list (pruneStatements slots))
  | none => block

end Minifier.Optimize
