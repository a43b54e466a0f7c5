import Minifier.Error
import Minifier.Json.Writer

/-!
# Error reports

An error is reported as a JSON document, so that a program that expects a document can tell the two
apart by the member `status`.
-/

namespace Minifier.Error

/-- The version of the form of reports. -/
def schemaVersion : String := "1"

/-- The parts of an error that are of use one by one. -/
def details? : Error → Option Json
  | .invalidName name fault =>
    some (.object [("name", .string name), ("reason", .string fault.reason)])
  | .file path _ => some (.object [("path", .string path)])
  | .construction what => some (.object [("kind", .string what)])
  | _ => none

/-- The report of an error. -/
def report (e : Error) : Json :=
  .object
    [("status", .string "error"),
     ("schema_version", .string schemaVersion),
     ("error", .object
       ([("code", .int e.code), ("message", .string e.message)] ++
         (e.details?.map fun details => ("details", details)).toList))]

end Minifier.Error
