import Minifier.Native
import Minifier.Value.Operator

/-!
# Constant expressions

The value of an expression that has one: literals, the three global constants, templates without
expressions, and operators on constant operands. `binds` tells which names are bound around the
expression; a global constant whose name is bound is not constant.
-/

namespace Minifier.Optimize

/-- The value of a literal. Regular expressions and big integers have none. -/
def literalValue? (n : Node) : Option Value :=
  if n.has "regex" || n.has "bigint" then none
  else
    match n.value? "value" with
    | none | some (.array _) | some (.object _) => none
    | some json => some (.ofJson json)

/-- The value of a global constant. -/
def constantValue? : String → Option Value
  | "undefined" => some .undefined
  | "NaN" => some (.number Double.nan)
  | "Infinity" => some (.number Double.infinity)
  | _ => none

/-- The value of a template without expressions. -/
def templateValue? (n : Node) : Option Value :=
  if (n.children "expressions").isEmpty then do
    let quasi ← (n.children "quasis").head?
    let json ← quasi.value? "value"
    let cooked ← (json.member? "cooked").bind Json.string?
    some (.string cooked)
  else none

/-- The value of an expression, where `operand?` gives the values of the expressions in its fields. -/
def valueFrom? (binds : String → Bool) (n : Node) (operand? : String → Option Value) :
    Option Value :=
  match n.kind with
  | .literal => literalValue? n
  | .identifier =>
    n.name?.bind fun name => if binds name then none else constantValue? name
  | .parenthesizedExpression => operand? "expression"
  | .templateLiteral => templateValue? n
  | .unaryExpression => do
    let operator ← (n.text? "operator").bind UnaryOperator.ofText?
    let operand ← operand? "argument"
    Value.unary? operator operand
  | .binaryExpression => do
    let operator ← (n.text? "operator").bind BinaryOperator.ofText?
    let left ← operand? "left"
    let right ← operand? "right"
    Value.binary? operator left right
  | .logicalExpression => do
    let operator ← (n.text? "operator").bind LogicalOperator.ofText?
    let left ← operand? "left"
    if left.decides operator then some left else operand? "right"
  | _ => none

/-- The value of an expression, if it has a constant one. -/
def evaluate? (binds : String → Bool) (n : Node) : Option Value :=
  valueFrom? binds n fun field =>
    match _h : n.child? field with
    | some child => evaluate? binds child
    | none => none
termination_by n.size
decreasing_by exact Node.size_child_lt ‹_›

end Minifier.Optimize
