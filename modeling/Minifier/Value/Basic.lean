/-!
# Run-time values

The values that a constant expression can have, with the operators that programs apply to them in
`Minifier.Value.Operator`. Numbers are doubles. Arrays and objects are *composite*, all other values
are *primitive*.
-/

namespace Minifier

/-- A value. The entries of an object keep their order, and a key may occur twice. -/
inductive Value where
  | undefined
  | null
  | bool (b : Bool)
  | number (x : Float)
  | string (s : String)
  | array (items : List Value)
  | object (entries : List (String × Value))
deriving Inhabited

namespace Value

/-- The value is neither an array nor an object. -/
def isPrimitive : Value → Bool
  | .array _ | .object _ => false
  | _ => true

/-- The value is `undefined` or `null`. -/
def isNullish : Value → Bool
  | .undefined | .null => true
  | _ => false

/-- The value is a string. -/
def isString : Value → Bool
  | .string _ => true
  | _ => false

/-- What the value counts for as a condition. -/
def truthy : Value → Bool
  | .undefined | .null => false
  | .bool b => b
  | .number x => x != 0.0 && !x.isNaN
  | .string s => !s.isEmpty
  | .array _ | .object _ => true

/-- The type of a value, as programs see it. -/
def typeName : Value → String
  | .undefined => "undefined"
  | .null | .array _ | .object _ => "object"
  | .bool _ => "boolean"
  | .number _ => "number"
  | .string _ => "string"

end Value

end Minifier
