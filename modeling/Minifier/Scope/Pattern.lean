import Minifier.Tree.Occurrence

/-!
# Binding patterns

A pattern binds identifiers. They are found in two ways, downward from the pattern
(`Occurrence.bindings`) and upward from an identifier (`patternDepth`); neither enters the keys of
properties or default values.
-/

namespace Minifier

/-- The identifiers that a pattern binds. -/
def Occurrence.bindings (o : Occurrence) : List Occurrence :=
  match o.node.kind with
  | .identifier => [o]
  | .objectPattern =>
    (o.children "properties").attach.flatMap fun ⟨property, _⟩ =>
      if property.node.kind = .property then
        match _h : property.child? "value" with
        | some value => value.bindings
        | none => []
      else property.bindings
  | .arrayPattern => (o.children "elements").attach.flatMap fun ⟨element, _⟩ => element.bindings
  | .assignmentPattern =>
    match _h : o.child? "left" with
    | some left => left.bindings
    | none => []
  | .restElement =>
    match _h : o.child? "argument" with
    | some argument => argument.bindings
    | none => []
  | _ => []
termination_by o.node.size
decreasing_by
  · exact Nat.lt_trans (size_child_lt ‹_›) (size_children_lt ‹_›)
  · exact size_children_lt ‹_›
  · exact size_children_lt ‹_›
  · exact size_child_lt ‹_›
  · exact size_child_lt ‹_›

namespace Scope

/-- The step down from an ancestor stays inside a pattern; `parent` is the next ancestor. -/
def isPatternStep (a : Ancestor) (parent : Option Ancestor) : Bool :=
  match a.kind, a.field with
  | .objectPattern, "properties"
  | .arrayPattern, "elements"
  | .assignmentPattern, "left"
  | .restElement, "argument" => true
  | .property, "value" => parent.any (·.kind == .objectPattern)
  | _, _ => false

/-- The number of ancestors that are parts of the pattern around a position. -/
def patternDepth : List Ancestor → Nat
  | [] => 0
  | a :: rest => if isPatternStep a rest.head? then patternDepth rest + 1 else 0

end Scope

end Minifier
