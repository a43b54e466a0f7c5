/-!
# What can go wrong

An `Error` names a cause. Its wording is in one place, `Error.message`, and so is the number by
which the command line reports it, `Error.code`. Where callers of the library raise errors of their
own (a visitor may refuse a tree), the cause is theirs and the constructor `other` carries their words.
-/

namespace Minifier

/-- Why a name cannot be declared. -/
inductive NameFault where
  | empty
  | notIdentifier
  | reserved
  | other (reason : String)
deriving DecidableEq, Repr

/-- Why an edit cannot be made at a position. -/
inductive EditFault where
  | replaceRoot
  | removeRoot
  /-- several nodes were to take the place of one that stands in no list -/
  | spliceOutsideList (count : Nat)
  /-- a field that holds one node was to hold several -/
  | spliceIntoField (field : String)
  | patchNotObject
  | patchTypeNotString
  /-- the position that was to be visited is gone -/
  | lostPosition
  | other (message : String)
deriving DecidableEq, Repr

/-- Why a document is no syntax tree. -/
inductive TreeFault where
  /-- the text is no JSON document; `detail` says how -/
  | unreadable (origin : String) (detail : String)
  /-- an object without a `type` -/
  | untyped
  /-- a value that is no object -/
  | notObject (found : String)
  | other (message : String)
deriving DecidableEq, Repr

/-- Why settings cannot be used. -/
inductive ConfigFault where
  | unreadable (detail : String)
  | other (message : String)
deriving DecidableEq, Repr

/-- An error of the library. -/
inductive Error where
  /-- a native value has no expression -/
  | construction (what : String)
  /-- a name cannot be declared -/
  | invalidName (name : String) (fault : NameFault)
  /-- an edit cannot be made -/
  | edit (fault : EditFault)
  /-- a document is no syntax tree -/
  | tree (fault : TreeFault)
  /-- settings cannot be used -/
  | config (fault : ConfigFault)
  /-- a file cannot be read or written -/
  | file (path : String) (reason : String)
  /-- a value cannot be written as JSON -/
  | json (reason : String)
deriving DecidableEq, Repr

/-- The reason, as the message of a name error ends. -/
def NameFault.reason : NameFault → String
  | .empty => "name is empty"
  | .notIdentifier => "not a syntactically valid identifier"
  | .reserved => "reserved word"
  | .other reason => reason

/-- The fault in words. -/
def EditFault.message : EditFault → String
  | .replaceRoot => "cannot replace the root: it has no parent slot"
  | .removeRoot => "cannot remove the root: it has no parent slot"
  | .spliceOutsideList count =>
    "cannot splice " ++ toString count ++ " nodes: position is not a list element"
  | .spliceIntoField field => "cannot splice into `" ++ field ++ "`: it is not a list"
  | .patchNotObject => "modify expects an object patch"
  | .patchTypeNotString => "`type` in a patch must be a string"
  | .lostPosition => "traversal position no longer exists"
  | .other message => message

/-- The fault in words. -/
def TreeFault.message : TreeFault → String
  | .unreadable origin detail => origin ++ ": " ++ detail
  | .untyped => "object has no string `type` discriminant"
  | .notObject found => "expected a node object, found " ++ found
  | .other message => message

/-- The fault in words. -/
def ConfigFault.message : ConfigFault → String
  | .unreadable detail => "failed to parse config file: " ++ detail
  | .other message => message

namespace Error

/-- The error in words. -/
def message : Error → String
  | .construction what => "cannot convert " ++ what ++ " to a tree node"
  | .invalidName name fault => "invalid identifier '" ++ name ++ "': " ++ fault.reason
  | .edit fault => "structural error: " ++ fault.message
  | .tree fault => "malformed tree: " ++ fault.message
  | .config fault => "configuration error: " ++ fault.message
  | .file path reason => "i/o error on " ++ path ++ ": " ++ reason
  | .json reason => "json error: " ++ reason

/-- The number of an error, which is also the exit code of the command: 2 for input that was asked
for wrongly, 3 for a document that is no tree, 4 for an edit that has no place, 10 for the rest. -/
def code : Error → Nat
  | .construction _ | .invalidName _ _ | .config _ => 2
  | .tree _ => 3
  | .edit _ => 4
  | .file _ _ | .json _ => 10

end Error

end Minifier
