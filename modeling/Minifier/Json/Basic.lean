import Minifier.Entries

/-!
# JSON values

`Json` is plain data: an object is a list of members in the order of the document, and nothing
forbids a repeated name. Values that a document reader produces have distinct names; the
readers and writers below say where that matters.

Numbers come in two kinds that never compare equal, integers and doubles: `1` and `1.0` are
different values and are written differently.
-/

namespace Minifier

/-- A JSON number: an integer, or a double. -/
inductive Number where
  | int (value : Int)
  | float (value : Float)

namespace Number

/-- Equality of numbers: integers with integers, doubles with doubles (so `0.0` equals `-0.0`). -/
def same : Number → Number → Bool
  | .int a, .int b => a == b
  | .float a, .float b => a == b
  | _, _ => false

/-- The double nearest to a number. -/
def toFloat : Number → Float
  | .int i => Float.ofInt i
  | .float x => x

end Number

/-- A JSON value. -/
inductive Json where
  | null
  | bool (value : Bool)
  | number (value : Number)
  | string (value : String)
  | array (items : List Json)
  | object (members : List (String × Json))
deriving Inhabited

namespace Json

/-- An integer value. -/
def int (i : Int) : Json := .number (.int i)

/-- The kind of a value, as a reader of an error message expects it. -/
def describe : Json → String
  | .null => "null"
  | .bool _ => "a boolean"
  | .number _ => "a number"
  | .string _ => "a string"
  | .array _ => "an array"
  | .object _ => "an object"

/-- The text of a string value. -/
def string? : Json → Option String
  | .string s => some s
  | _ => none

/-- The truth value of a boolean. -/
def bool? : Json → Option Bool
  | .bool b => some b
  | _ => none

/-- The member with the given name of an object. -/
def member? (name : String) : Json → Option Json
  | .object members => Entries.get? members name
  | _ => none

mutual

/-- Equality of values. The order of an object's members does not matter: two objects are equal
when they have equally many members and each member of the first has an equal in the second. -/
def same : Json → Json → Bool
  | .null, .null => true
  | .bool a, .bool b => a == b
  | .number a, .number b => a.same b
  | .string a, .string b => a == b
  | .array a, .array b => sameItems a b
  | .object a, .object b => a.length == b.length && sameMembers a b
  | _, _ => false

/-- Equality of item lists, position by position. -/
def sameItems : List Json → List Json → Bool
  | [], [] => true
  | a :: as, b :: bs => same a b && sameItems as bs
  | _, _ => false

/-- Each member of the first list has an equal of the same name in the second. -/
def sameMembers : List (String × Json) → List (String × Json) → Bool
  | [], _ => true
  | (name, a) :: rest, others =>
    (match Entries.get? others name with
      | some b => same a b
      | none => false) && sameMembers rest others

end

end Json

end Minifier
