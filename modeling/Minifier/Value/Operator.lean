import Minifier.Text.Units
import Minifier.Value.Numeric

/-!
# Operators on values

The operators of programs whose result depends on nothing but their operands, and what they
compute. Unary and binary operators want primitive operands; the short-circuit operators
pick one of two operands, whatever it is.
-/

namespace Minifier

/-- Operators before one operand. -/
inductive UnaryOperator where
  | minus | plus | not | complement | void | typeof
deriving DecidableEq, Repr

/-- Operators between two operands that both count. -/
inductive BinaryOperator where
  | add | subtract | multiply | divide | remainder | power
  | bitOr | bitAnd | bitXor | shiftLeft | shiftRight | shiftRightZero
  | equal | unequal | identical | unidentical
  | less | greater | lessEqual | greaterEqual
deriving DecidableEq, Repr

/-- Operators that need their second operand only at times. -/
inductive LogicalOperator where
  | and | or | coalesce
deriving DecidableEq, Repr

namespace UnaryOperator

/-- All unary operators. -/
def all : List UnaryOperator := [.minus, .plus, .not, .complement, .void, .typeof]

/-- How an operator is written. -/
def text : UnaryOperator → String
  | .minus => "-"
  | .plus => "+"
  | .not => "!"
  | .complement => "~"
  | .void => "void"
  | .typeof => "typeof"

/-- The operator that is written so. -/
def ofText? (s : String) : Option UnaryOperator := all.find? (·.text == s)

end UnaryOperator

namespace BinaryOperator

/-- All binary operators. -/
def all : List BinaryOperator :=
  [.add, .subtract, .multiply, .divide, .remainder, .power,
   .bitOr, .bitAnd, .bitXor, .shiftLeft, .shiftRight, .shiftRightZero,
   .equal, .unequal, .identical, .unidentical,
   .less, .greater, .lessEqual, .greaterEqual]

/-- How an operator is written. -/
def text : BinaryOperator → String
  | .add => "+"
  | .subtract => "-"
  | .multiply => "*"
  | .divide => "/"
  | .remainder => "%"
  | .power => "**"
  | .bitOr => "|"
  | .bitAnd => "&"
  | .bitXor => "^"
  | .shiftLeft => "<<"
  | .shiftRight => ">>"
  | .shiftRightZero => ">>>"
  | .equal => "=="
  | .unequal => "!="
  | .identical => "==="
  | .unidentical => "!=="
  | .less => "<"
  | .greater => ">"
  | .lessEqual => "<="
  | .greaterEqual => ">="

/-- The operator that is written so. -/
def ofText? (s : String) : Option BinaryOperator := all.find? (·.text == s)

end BinaryOperator

namespace LogicalOperator

/-- All short-circuit operators. -/
def all : List LogicalOperator := [.and, .or, .coalesce]

/-- How an operator is written. -/
def text : LogicalOperator → String
  | .and => "&&"
  | .or => "||"
  | .coalesce => "??"

/-- The operator that is written so. -/
def ofText? (s : String) : Option LogicalOperator := all.find? (·.text == s)

end LogicalOperator

namespace Value

/-! ### Equality and order -/

/-- Equality without conversion. Two composite values are never the same one. -/
def identical : Value → Value → Bool
  | .undefined, .undefined | .null, .null => true
  | .bool a, .bool b => a == b
  | .number a, .number b => a == b
  | .string a, .string b => a == b
  | _, _ => false

/-- Equality of primitive values with conversion: `undefined` and `null` equal only each other,
strings and booleans are compared among themselves, and all else as numbers. -/
def equalPrimitives (left right : Value) : Bool :=
  match left.isNullish, right.isNullish with
  | true, true => true
  | true, false | false, true => false
  | false, false =>
    match left, right with
    | .string a, .string b => a == b
    | .bool a, .bool b => a == b
    | _, _ => left.toNumber == right.toNumber

/-- Equality with conversion, known for primitive values only. -/
def looselyEqual? (left right : Value) : Option Bool :=
  if left.isPrimitive && right.isPrimitive then some (equalPrimitives left right) else none

/-- The order of two numbers, unless one is not a number. -/
def compareNumbers? (x y : Float) : Option Ordering :=
  if x < y then some .lt else if y < x then some .gt else if x == y then some .eq else none

/-- The order of two values: of strings by their units, of all else by their numbers. -/
def compare? : Value → Value → Option Ordering
  | .string a, .string b => some (Text.compare a b)
  | left, right => compareNumbers? left.toNumber right.toNumber

/-! ### Arithmetic -/

/-- A base raised to an exponent. There is no result for an exponent that is not a number, nor for an
infinite exponent of a base of magnitude one. -/
def power (base exponent : Float) : Float :=
  if exponent.isNaN || (base.abs == 1.0 && exponent.isInf) then Double.nan
  else base.pow exponent

/-- The number of a word in two's complement. -/
def ofSigned (w : UInt32) : Value := .number (Float.ofInt (Double.signed w))

/-- The low word of a value's number. -/
def word (v : Value) : UInt32 := Double.word32 v.toNumber

/-- The number of places of a shift. -/
def shiftCount (v : Value) : UInt32 := v.word % 32

/-- A shift to the right that brings in copies of the sign. -/
def shiftRightSigned (w count : UInt32) : Int := Double.signed w / (1 <<< count.toNat : Nat)

/-! ### The operators -/

/-- The result of a unary operator on a primitive operand. -/
def applyUnary : UnaryOperator → Value → Value
  | .minus, v => .number (-v.toNumber)
  | .plus, v => .number v.toNumber
  | .not, v => .bool !v.truthy
  | .complement, v => ofSigned (~~~v.word)
  | .void, _ => .undefined
  | .typeof, v => .string v.typeName

/-- The result of a binary operator on primitive operands. -/
def applyBinary (operator : BinaryOperator) (left right : Value) : Value :=
  match operator with
  | .add =>
    if left.isString || right.isString then .string (left.text ++ right.text)
    else .number (left.toNumber + right.toNumber)
  | .subtract => .number (left.toNumber - right.toNumber)
  | .multiply => .number (left.toNumber * right.toNumber)
  | .divide => .number (left.toNumber / right.toNumber)
  | .remainder => .number (Double.remainder left.toNumber right.toNumber)
  | .power => .number (power left.toNumber right.toNumber)
  | .bitOr => ofSigned (left.word ||| right.word)
  | .bitAnd => ofSigned (left.word &&& right.word)
  | .bitXor => ofSigned (left.word ^^^ right.word)
  | .shiftLeft => ofSigned (left.word <<< right.shiftCount)
  | .shiftRight => .number (Float.ofInt (shiftRightSigned left.word right.shiftCount))
  | .shiftRightZero => .number (Float.ofNat (left.word >>> right.shiftCount).toNat)
  | .equal => .bool (equalPrimitives left right)
  | .unequal => .bool !(equalPrimitives left right)
  | .identical => .bool (identical left right)
  | .unidentical => .bool !(identical left right)
  | .less => .bool (compare? left right == some .lt)
  | .greater => .bool (compare? left right == some .gt)
  | .lessEqual => .bool (compare? left right == some .lt || compare? left right == some .eq)
  | .greaterEqual => .bool (compare? left right == some .gt || compare? left right == some .eq)

/-- The result of a unary operator, if its operand is primitive. -/
def unary? (operator : UnaryOperator) (v : Value) : Option Value :=
  if v.isPrimitive then some (applyUnary operator v) else none

/-- The result of a binary operator, if its operands are primitive. -/
def binary? (operator : BinaryOperator) (left right : Value) : Option Value :=
  if left.isPrimitive && right.isPrimitive then some (applyBinary operator left right) else none

/-- The first operand of a short-circuit operator decides the result. -/
def decides (operator : LogicalOperator) (left : Value) : Bool :=
  match operator with
  | .and => !left.truthy
  | .or => left.truthy
  | .coalesce => !left.isNullish

/-- The result of a short-circuit operator: one of its operands. -/
def logical (operator : LogicalOperator) (left right : Value) : Value :=
  if left.decides operator then left else right

end Value

end Minifier
