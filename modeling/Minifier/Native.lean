import Minifier.Expression
import Minifier.Json.Writer

/-!
# Expressions for host data

`Native` is data as a host program holds it. It becomes an expression by way of JSON: what JSON cannot hold
is an error, numbers that are not finite are null, and the keys of a mapping are the texts of
strings, numbers and booleans.
-/

namespace Minifier

mutual

/-- The value that a JSON value denotes. -/
def Value.ofJson : Json → Value
  | .null => .null
  | .bool b => .bool b
  | .number n => .number n.toFloat
  | .string s => .string s
  | .array items => .array (ofJsonItems items)
  | .object members => .object (ofJsonMembers members)

/-- The values of items. -/
def Value.ofJsonItems : List Json → List Value
  | [] => []
  | item :: rest => Value.ofJson item :: ofJsonItems rest

/-- The values of members. -/
def Value.ofJsonMembers : List (String × Json) → List (String × Value)
  | [] => []
  | (name, json) :: rest => (name, Value.ofJson json) :: ofJsonMembers rest

end

/-- Data of a host program. -/
inductive Native where
  | unit
  | bool (b : Bool)
  | number (n : Number)
  | text (s : String)
  | bytes (bs : List UInt8)
  /-- an optional value that is there -/
  | present (value : Native)
  | sequence (items : List Native)
  | mapping (entries : List (Native × Native))
  /-- data that refuses to be written, with its reason -/
  | refusal (reason : String)
deriving Inhabited

namespace Native

/-- The text of a key. -/
def keyText : Native → Except Error String
  | .text s => .ok s
  | .bool b => .ok (if b then "true" else "false")
  | .number (.int i) => .ok (String.ofList (Number.intText i))
  | .number (.float x) =>
    if x.isNaN || x.isInf then
      .error (.construction "float key must be finite (got NaN or +/-inf)")
    else .ok (String.ofList (Number.floatText x))
  | .refusal reason => .error (.construction reason)
  | _ => .error (.construction "key must be a string")

mutual

/-- The JSON value of host data. -/
def toJson : Native → Except Error Json
  | .unit => .ok .null
  | .bool b => .ok (.bool b)
  | .number (.float x) => .ok (if x.isNaN || x.isInf then .null else .number (.float x))
  | .number n => .ok (.number n)
  | .text s => .ok (.string s)
  | .bytes bs => .ok (.array (bs.map fun b => Json.int b.toNat))
  | .present value => toJson value
  | .sequence items => (itemsToJson items).map .array
  | .mapping entries => (entriesToJson entries).map fun pairs => .object (Entries.ofPairs pairs)
  | .refusal reason => .error (.construction reason)

/-- The JSON values of items. -/
def itemsToJson : List Native → Except Error (List Json)
  | [] => .ok []
  | item :: rest => do
    let json ← toJson item
    let others ← itemsToJson rest
    pure (json :: others)

/-- The members for the entries of a mapping. -/
def entriesToJson : List (Native × Native) → Except Error (List (String × Json))
  | [] => .ok []
  | (key, value) :: rest => do
    let name ← keyText key
    let json ← toJson value
    let others ← entriesToJson rest
    pure ((name, json) :: others)

end

/-- The expression that denotes host data. -/
def toExpression (data : Native) : Except Error Node :=
  data.toJson.map fun json => Expression.ofValue (.ofJson json)

end Native

/-- The expression that denotes a JSON value. -/
def Expression.ofJson (json : Json) : Node := ofValue (.ofJson json)

end Minifier
