import Minifier.Edit.Walk
import Minifier.Optimize.Evaluate
import Minifier.Optimize.Statement
import Minifier.Scope.Resolve

/-!
# The optimizer

One walk over a tree that

* puts constants in the place of unary, binary and logical expressions that have a constant value,
* puts the branch that is taken in the place of an `if` with a constant test,
* drops what follows a `return` in a block,
* drops `"use strict"` among the directives that start a program or a function,
* writes `void e;` as `!e;`.

The second and the third are done on leaving a statement, when all inside it is settled.
-/

namespace Minifier.Optimize

/-- What is done on leaving a statement. -/
inductive Hook where
  | foldIf
  | prune
deriving DecidableEq, Repr

/-- What the optimizer does at a position. -/
abbrev Rule := Action Unit Hook Unit

/-- The value of an expression that stands where the cursor is. -/
def valueAt? (c : Cursor Hook) (expression : Node) : Option Value :=
  evaluate? (Scope.isBound c.ancestors) expression

/-- Put a constant in the place of an expression. `void 0` stays: nothing is shorter for
`undefined`. -/
def foldExpression : Rule := do
  let c ← Action.cursor
  if c.node.text? "operator" != some "void" then
    if let some value := valueAt? c c.node then
      let folded := Expression.ofValue value
      unless folded.same c.node do Action.replace folded

/-- The statement starts as `void e`. -/
def discardsVoid (statement : Node) : Bool :=
  (statement.child? "expression").any fun expression =>
    expression.kind == .unaryExpression && expression.text? "operator" == some "void"

/-- The patch that makes `void e` into `!e`. -/
def negatePatch : Json := .object [("expression", .object [("operator", .string "!")])]

/-- Drop `"use strict"`, and shorten `void e`. -/
def simplifyStatement : Rule := do
  let c ← Action.cursor
  if directive? c.node == some "use strict" && c.index?.any (inPrologue c.ancestors) then
    Action.remove
  else if discardsVoid c.node then Action.patch true negatePatch

/-- The branches of an `if` by the truth of its test: the one that is taken, and the other. -/
def branches (statement : Node) (test : Bool) : Option Node × Option Node :=
  let consequent := statement.child? "consequent"
  let alternate := statement.child? "alternate"
  if test then (consequent, alternate) else (alternate, consequent)

/-- Put the branch that is taken in the place of an `if`. The block of a branch is dissolved in a list if it
declares nothing of its own. An `if` stays if the other branch declares a variable. -/
def foldIf : Rule := do
  let c ← Action.cursor
  if let some test := (c.node.child? "test").bind (valueAt? c) then
    let (taken, untaken) := branches c.node test.truthy
    unless untaken.any declaresVar do
      match taken, c.index? with
      | none, some _ => Action.remove
      | none, none => Action.replace ⟨.emptyStatement, []⟩
      | some statement, some _ =>
        if statement.kind = .blockStatement ∧ !hasLexical statement then
          Action.replaceWithMany (statement.children "body")
        else Action.replace statement
      | some statement, none => Action.replace statement

/-- What the optimizer does on meeting a position. -/
def enter : Rule := do
  match (← Action.node).kind with
  | .binaryExpression | .logicalExpression | .unaryExpression => foldExpression
  | .expressionStatement => simplifyStatement
  | .ifStatement => Action.onLeave .foldIf
  | .blockStatement => Action.onLeave .prune
  | _ => pure ()

/-- What the optimizer does on leaving a position. -/
def leave : Hook → Rule
  | .foldIf => foldIf
  | .prune => Action.updateNode prune

/-- The optimizer as a visitor. -/
def optimizer : Visitor Unit Hook := { enter, leave }

/-- Optimize a tree. The optimizer adds no levels, so that the size of the tree bounds the walk. -/
def optimize (tree : Node) : Except Error Node :=
  let walked := optimizer.run tree.size tree ()
  match walked.error with
  | none => .ok walked.tree
  | some error => .error error

end Minifier.Optimize
