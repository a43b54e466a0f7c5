import Minifier.Double
import Minifier.Name
import Minifier.Tree.Node
import Minifier.Value.Text

/-!
# Expressions for values

`Expression.ofValue` is the expression that a program would use to denote a value. What has no literal
form is spelled out: `undefined`, `NaN` and `Infinity` are identifiers, and a number with a minus
sign is a negation.
-/

namespace Minifier.Expression

/-- An identifier. -/
def identifier (name : String) : Node := ⟨.identifier, [("name", .value (.string name))]⟩

/-- One character inside single quotes. Quotes, backslashes and line ends are escaped. -/
def quoteChar (c : Char) : List Char :=
  if c = '\'' then ['\\', '\'']
  else if c = '\\' then ['\\', '\\']
  else if c = '\n' then ['\\', 'n']
  else if c = '\r' then ['\\', 'r']
  else if c.toNat = 0x2028 then "\\u2028".toList
  else if c.toNat = 0x2029 then "\\u2029".toList
  else [c]

/-- A string in single quotes. -/
def quote (s : String) : String := String.ofList ('\'' :: s.toList.flatMap quoteChar ++ ['\''])

/-- The greatest integer up to which doubles hold all integers, `2 ^ 53 - 1`. -/
def greatestSafe : Nat := 0x1fffffffffffff

/-- A number in a document: an integer if it is one that doubles hold safely, but not for negative
zero, and null if it is not finite. -/
def numberJson (x : Float) : Json :=
  match Double.parts x with
  | .infinity _ | .notANumber => .null
  | .zero .positive => .int 0
  | .zero .negative => .number (.float x)
  | .finite .. =>
    match Double.integer? x with
    | some i => if i.natAbs ≤ greatestSafe then .int i else .number (.float x)
    | none => .number (.float x)

/-- The value and the source text of a literal. -/
def literalParts : Value → Json × String
  | .null => (.null, "null")
  | .bool b => (.bool b, if b then "true" else "false")
  | .number x => (numberJson x, Value.numberText x)
  | .string s => (.string s, quote s)
  | other => (.null, other.text)

/-- A literal. Only for null, booleans, strings and numbers without a minus sign is this an expression
that denotes the value. -/
def literal (v : Value) : Node :=
  let (value, raw) := literalParts v
  ⟨.literal, [("value", .value value), ("raw", .value (.string raw))]⟩

/-- The key of a property: an identifier if the name can be one, else a string. -/
def propertyKey (name : String) : Node :=
  if Name.isBinding name then identifier name else literal (.string name)

/-- A negation. -/
def negation (argument : Node) : Node :=
  ⟨.unaryExpression,
    [("operator", .value (.string "-")), ("prefix", .value (.bool true)),
     ("argument", .child argument)]⟩

/-- The expression for a number without a minus sign. -/
def ofMagnitude (x : Float) : Node :=
  if x.isInf then identifier "Infinity" else literal (.number x)

/-- The expression for a number. -/
def ofNumber (x : Float) : Node :=
  if x.isNaN then identifier "NaN"
  else if Double.isNegative x then negation (ofMagnitude (-x))
  else ofMagnitude x

/-- A property with a plain key. -/
def property (key : String) (value : Node) : Node :=
  ⟨.property,
    [("key", .child (propertyKey key)), ("value", .child value), ("kind", .value (.string "init")),
     ("method", .value (.bool false)), ("shorthand", .value (.bool false)),
     ("computed", .value (.bool false))]⟩

mutual

/-- The expression that denotes a value. -/
def ofValue : Value → Node
  | .undefined => identifier "undefined"
  | .number x => ofNumber x
  | .array items => ⟨.arrayExpression, [("elements", .list (ofItems items))]⟩
  | .object entries => ⟨.objectExpression, [("properties", .list (ofEntries entries))]⟩
  | v => literal v

/-- The elements of an array. -/
def ofItems : List Value → List (Option Node)
  | [] => []
  | item :: rest => some (ofValue item) :: ofItems rest

/-- The properties of an object. -/
def ofEntries : List (String × Value) → List (Option Node)
  | [] => []
  | (key, value) :: rest => some (property key (ofValue value)) :: ofEntries rest

end

/-- The word that starts a declaration of variables. -/
inductive VariableKind where
  | var | let | const
deriving DecidableEq, Repr

/-- How the word is written. -/
def VariableKind.text : VariableKind → String
  | .var => "var"
  | .let => "let"
  | .const => "const"

/-- One variable with its value. -/
def declarator (name : String) (value : Value) : Node :=
  ⟨.variableDeclarator, [("id", .child (identifier name)), ("init", .child (ofValue value))]⟩

/-- The declaration of variables with values; the first name that cannot be declared is an error. -/
def variableDeclaration (kind : VariableKind) (items : List (String × Value)) : Except Error Node := do
  let declarators ← items.mapM fun (name, value) => do
    Name.check name
    pure (some (declarator name value))
  pure ⟨.variableDeclaration,
    [("declarations", .list declarators), ("kind", .value (.string kind.text))]⟩

end Minifier.Expression
