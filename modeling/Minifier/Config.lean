import Minifier.Json.Reader
import Minifier.Mangle.Assignment

/-!
# Settings

Settings are read from a JSON document with two sections, `mangle` and `output`. Everything may be
left out, but what is there has to be of the right type, and a setting may be given only once. At the
top only the two sections are allowed; in a section, unknown settings are passed over, and their
values need not even be values. A section, and the whole, may also be written as the array of its
settings in order.
-/

namespace Minifier

/-- The settings of a run. -/
structure Config where
  mangle : Mangle.Options := {}
  /-- write documents on one line -/
  compact : Bool := false
deriving DecidableEq, Repr

namespace Config

/-- A boolean. -/
def bool? : Draft → Option Bool
  | .bool b => some b
  | _ => none

/-- A number of 64 bits without a sign. -/
def seed? : Draft → Option UInt64
  | .number numeral =>
    match numeral.toInt? with
    | some (.ofNat n) => some (UInt64.ofNat n)
    | _ => none
  | _ => none

/-- A string that has a text. -/
def text? : Draft → Option String
  | .string text => text
  | _ => none

/-- A list of strings. -/
def texts? : Draft → Option (List String)
  | .array items => items.mapM text?
  | _ => none

/-- Read settings one after the other: `read` takes a setting into account, or refuses it. A name without a
text and a repeated name are refused; `strict` tells whether an unknown one is, too. -/
def readMembers? {α : Type} (known : List String) (strict : Bool)
    (read : α → String → Draft → Option α) (seen : List String) (settings : α) :
    List (Option String × Draft) → Option α
  | [] => some settings
  | (none, _) :: _ => none
  | (some name, draft) :: rest =>
    if !known.contains name then
      if strict then none else readMembers? known strict read seen settings rest
    else if seen.contains name then none
    else
      (read settings name draft).bind fun settings =>
        readMembers? known strict read (name :: seen) settings rest

/-- Read settings that stand in their order, and no more than there are. -/
def readItems? {α : Type} (read : α → String → Draft → Option α) (settings : α) :
    List String → List Draft → Option α
  | _, [] => some settings
  | [], _ :: _ => none
  | name :: names, draft :: rest =>
    (read settings name draft).bind fun settings => readItems? read settings names rest

/-- Read a section in either form. -/
def readSection? {α : Type} (known : List String) (strict : Bool)
    (read : α → String → Draft → Option α) (settings : α) : Draft → Option α
  | .object members => readMembers? known strict read [] settings members
  | .array items => readItems? read settings known items
  | _ => none

/-- Take a setting of the mangler into account. -/
def readMangle? (options : Mangle.Options) (name : String) (draft : Draft) :
    Option Mangle.Options :=
  match name with
  | "reserved" => (texts? draft).map fun reserved => { options with reserved }
  | "seed" => (seed? draft).map fun seed => { options with seed }
  | _ => none

/-- Take a setting of the output into account. -/
def readOutput? (compact : Bool) (name : String) (draft : Draft) : Option Bool :=
  match name with
  | "compact" => bool? draft
  | _ => some compact

/-- Take a section into account. -/
def readTop? (config : Config) (name : String) (draft : Draft) : Option Config :=
  match name with
  | "mangle" =>
    (readSection? ["reserved", "seed"] false readMangle? config.mangle draft).map
      fun mangle => { config with mangle }
  | "output" =>
    (readSection? ["compact"] false readOutput? config.compact draft).map
      fun compact => { config with compact }
  | _ => none

/-- The settings of a draft. -/
def ofDraft? (draft : Draft) : Option Config :=
  readSection? ["mangle", "output"] true readTop? {} draft

/-- Read settings. -/
def read (text : String) : Except Error Config :=
  match (Draft.read? text).bind ofDraft? with
  | some config => .ok config
  | none => .error (.config (.unreadable "not a settings document"))

/-- The settings with names added to the reserved ones, and with another seed if one is given. -/
def override (config : Config) (reserved : List String) (seed : Option UInt64) : Config :=
  { config with
    mangle :=
      { reserved := config.mangle.reserved ++ reserved
        seed := seed.getD config.mangle.seed } }

end Config

end Minifier
