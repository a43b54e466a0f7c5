import Minifier.Tree.Document

/-!
# Patches

A patch is the members of a JSON object that are merged into a node. A shallow patch overwrites the
fields that it names. A deep one goes on merging wherever both sides have something to merge: a child
with an object, a list of slots with an array, an opaque object with an object. In both, `type`
changes the kind.

A patch may turn out to be wrong when part of it is already done. What was done stays done, so
the functions here return what they made together with the error that stopped them, if one did.
-/

namespace Minifier

/-- What an edit made, and the error that stopped it, if one did. -/
structure Attempt (α : Type) where
  result : α
  error : Option Error := none

/-- Put what was made into its place. -/
def Attempt.map {α β : Type} (f : α → β) (p : Attempt α) : Attempt β := ⟨f p.result, p.error⟩

namespace Patch

mutual

/-- Merge a value into another inside an opaque object: objects merge, all else is overwritten. -/
def mergeJson : Json → Json → Json
  | .object old, .object new => .object (mergeObject old new)
  | _, new => new

/-- Merge the members of an opaque object into those of another. -/
def mergeObject (old : List (String × Json)) : List (String × Json) → List (String × Json)
  | [] => old
  | (name, new) :: rest =>
    match Entries.get? old name with
    | some json => mergeObject (Entries.set old name (mergeJson json new)) rest
    | none => mergeObject (Entries.set old name new) rest

end

mutual

/-- Merge members into a node. -/
def mergeNode (deep : Bool) (n : Node) : List (String × Json) → Attempt Node
  | [] => ⟨n, none⟩
  | (name, json) :: rest =>
    if name = "type" then
      match json with
      | .string kind => mergeNode deep { n with kind := .ofName kind } rest
      | _ => ⟨n, some (.edit .patchTypeNotString)⟩
    else
      match n.get? name, deep with
      | some field, true =>
        match mergeField field json with
        | ⟨field, none⟩ => mergeNode deep (n.set name field) rest
        | ⟨field, some error⟩ => ⟨n.set name field, some error⟩
      | _, _ => mergeNode deep (n.set name (Field.ofJson json)) rest

/-- Merge a value into a field. -/
def mergeField : Field Node → Json → Attempt (Field Node)
  | .child node, .object members => (mergeNode true node members).map .child
  | .list slots, .array items => (mergeSlots slots items).map .list
  | .value (.object old), .object new => ⟨.value (.object (mergeObject old new)), none⟩
  | _, json => ⟨Field.ofJson json, none⟩

/-- Merge items into slots: an object into a node, any other item in the place of what is there, and
items without a slot behind the last. -/
def mergeSlots : List (Option Node) → List Json → Attempt (List (Option Node))
  | slots, [] => ⟨slots, none⟩
  | some node :: slots, .object members :: items =>
    match mergeNode true node members with
    | ⟨node, none⟩ => (mergeSlots slots items).map (some node :: ·)
    | ⟨node, some error⟩ => ⟨some node :: slots, some error⟩
  | slots, item :: items =>
    match slotOfJson item with
    | .ok slot => (mergeSlots slots.tail items).map (slot :: ·)
    | .error error => ⟨slots, some error⟩

end

/-- Merge a patch into a node; only an object is a patch. -/
def apply (deep : Bool) (n : Node) : Json → Attempt Node
  | .object members => mergeNode deep n members
  | _ => ⟨n, some (.edit .patchNotObject)⟩

end Patch

end Minifier
