import Minifier.Mangle.Discovery
import Minifier.Naming.Symbol

/-!
# New names

Each candidate that is not excluded gets the next symbol that is free: not reserved, not excluded, not a
name of any identifier of the tree, not the name of a candidate, and not given before.
-/

namespace Minifier.Mangle

/-- What a mangling run is told. -/
structure Options where
  /-- names that keep their bindings and are never given to others -/
  reserved : List String := []
  /-- decides the order of letters -/
  seed : UInt64 := 0
deriving DecidableEq, Repr

/-- A candidate and the name it was given. -/
structure Assignment where
  candidate : Candidate
  generated : String
deriving DecidableEq, Repr

/-- The names that are not given to a candidate. -/
structure Taken where
  /-- names that keep their bindings -/
  excluded : List String
  /-- names of identifiers of the tree -/
  occupied : List String
  /-- names of candidates -/
  originals : List String
  /-- names that were given so far -/
  used : List String := []

namespace Taken

def contains (taken : Taken) (s : String) : Bool :=
  taken.excluded.contains s || taken.occupied.contains s || taken.originals.contains s
    || taken.used.contains s

/-- A name is given. -/
def give (taken : Taken) (s : String) : Taken := { taken with used := s :: taken.used }

/-- How many symbols are tried for one candidate. Symbols differ from each other, so that one more
than there are names to avoid will do. -/
def tries (taken : Taken) : Nat :=
  Name.reservedWords.length + Name.protectedGlobals.length + taken.excluded.length
    + taken.occupied.length + taken.originals.length + taken.used.length + 1

end Taken

/-- Give names to candidates. -/
def assignFrom (taken : Taken) (g : Naming.Generator) : List Candidate → List Assignment
  | [] => []
  | candidate :: rest =>
    if taken.excluded.contains candidate.name then assignFrom taken g rest
    else
      match g.available? taken.contains taken.tries with
      | some (generated, g) => ⟨candidate, generated⟩ :: assignFrom (taken.give generated) g rest
      | none => assignFrom taken g rest

/-- The names that are not given to candidates of a tree with the given census. -/
def Taken.of (options : Options) (census : List String) (candidates : List Candidate) : Taken where
  excluded := options.reserved
  occupied := census
  originals := candidates.map (·.name)

/-- Give names to candidates of a tree with the given census. -/
def assign (options : Options) (census : List String) (candidates : List Candidate) :
    List Assignment :=
  assignFrom (.of options census candidates) (.ofSeed options.seed) candidates

/-- The name that a candidate was given. -/
def generated? (assignments : List Assignment) (candidate : Candidate) : Option String :=
  (assignments.find? (·.candidate == candidate)).map (·.generated)

end Minifier.Mangle
