import Minifier.Error
import Minifier.Json.Reader
import Minifier.Json.Writer
import Minifier.Tree.Node

/-!
# Syntax trees as JSON documents

A node is written as an object whose `type` names its kind and whose other members are its fields.
Reading is by shape: an object with a string `type` is a node, an array of such objects and nulls is
a list of slots, and every other value is opaque.

There are two ways of writing. `Node.document` writes the `type` and then every field as it stands, so a
field that is itself called `type` shows up as a second member of that name. `Node.toJson` is the
JSON *value* of a node, whose names are distinct: there the later member wins.
-/

namespace Minifier

/-- The name of the kind that the members of a node object give. -/
def Json.typeName? (members : List (String × Json)) : Option String :=
  (Entries.get? members "type").bind Json.string?

/-- The value is the object of a node. -/
def Json.isTyped : Json → Bool
  | .object members => (typeName? members).isSome
  | _ => false

/-- The value can fill a slot of a list: a node, or null for a hole. -/
def Json.isSlot : Json → Bool
  | .null => true
  | json => json.isTyped

mutual

/-- The field content that a JSON value stands for. -/
def Field.ofJson : Json → Field Node
  | .object members =>
    match Json.typeName? members with
    | some name => .child ⟨.ofName name, fieldsOfMembers members⟩
    | none => .value (.object members)
  | .array items => if items.all Json.isSlot then .list (slotsOfItems items) else .value (.array items)
  | json => .value json

/-- The fields that the members of a node object stand for. -/
def fieldsOfMembers : List (String × Json) → List (String × Field Node)
  | [] => []
  | (name, json) :: rest =>
    if name = "type" then fieldsOfMembers rest
    else (name, Field.ofJson json) :: fieldsOfMembers rest

/-- The slots that the items of an array stand for; what is no node is a hole. -/
def slotsOfItems : List Json → List (Option Node)
  | [] => []
  | item :: rest => (Field.ofJson item).child? :: slotsOfItems rest

end

/-- The node that a JSON value stands for. -/
def Node.ofJson (json : Json) : Except Error Node :=
  match Field.ofJson json, json with
  | .child node, _ => .ok node
  | _, .object _ => .error (.tree .untyped)
  | _, other => .error (.tree (.notObject other.describe))

/-- The content of a slot that a JSON value stands for: null is a hole. -/
def slotOfJson : Json → Except Error (Option Node)
  | .null => .ok none
  | json => (Node.ofJson json).map some

namespace Node

mutual

/-- The object of a node, where `finish` has the last word on the members of each object. -/
def encode (finish : List (String × Json) → List (String × Json)) : Node → Json
  | ⟨kind, fields⟩ =>
    .object (finish (("type", .string kind.name) :: encodeFields finish fields))

/-- The members for a list of fields. -/
def encodeFields (finish : List (String × Json) → List (String × Json)) :
    List (String × Field Node) → List (String × Json)
  | [] => []
  | (name, field) :: rest => (name, encodeField finish field) :: encodeFields finish rest

/-- The value of a field. -/
def encodeField (finish : List (String × Json) → List (String × Json)) : Field Node → Json
  | .child node => encode finish node
  | .list slots => .array (encodeSlots finish slots)
  | .value json => json

/-- The items for a list of slots. -/
def encodeSlots (finish : List (String × Json) → List (String × Json)) :
    List (Option Node) → List Json
  | [] => []
  | none :: rest => .null :: encodeSlots finish rest
  | some node :: rest => encode finish node :: encodeSlots finish rest

end

/-- The members of a node as a document shows them. -/
def document (n : Node) : Json := n.encode id

/-- The JSON value of a node, whose names are distinct. -/
def toJson (n : Node) : Json := n.encode Entries.ofPairs

/-- The compact text of a node. -/
def text (n : Node) : String := n.document.compact

/-- A whole document that holds a node, in compact or in indented form. -/
def render (n : Node) (compact : Bool) : String := n.document.document compact

/-- Read a document that holds a node; `origin` names the document in messages. -/
def read (text origin : String) : Except Error Node :=
  match Json.read? text with
  | some json => ofJson json
  | none => .error (.tree (.unreadable origin Json.unreadable))

end Node

/-- The value of a field as a document shows it. -/
def Field.document (field : Field Node) : Json := Node.encodeField id field

end Minifier
