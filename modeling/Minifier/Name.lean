import Minifier.Error
import Minifier.Text.Identifier

/-!
# Names of bindings

Which names a program may declare. `isIdentifier` is the shape of an identifier, `isBinding` leaves
out the reserved words, and `check` says which rule a refused name breaks. `isReserved` covers
in addition the globals that a generated name must never hide.
-/

namespace Minifier.Name

/-- Names that can never be declared. -/
def reservedWords : List String :=
  ["await", "break", "case", "catch", "class", "const", "continue", "debugger", "default",
   "delete", "do", "else", "enum", "export", "extends", "false", "finally", "for", "function",
   "if", "import", "in", "instanceof", "let", "new", "null", "return", "static", "super",
   "switch", "this", "throw", "true", "try", "typeof", "var", "void", "while", "with", "yield",
   "implements", "interface", "package", "private", "protected", "public", "arguments", "eval"]

/-- Globals that no generated name may hide. -/
def protectedGlobals : List String := ["undefined", "NaN", "Infinity", "globalThis"]

/-- The name is a reserved word or a protected global. -/
def isReserved (name : String) : Bool :=
  reservedWords.contains name || protectedGlobals.contains name

/-- The character may start an identifier. -/
def isStart (c : Char) : Bool := c == '$' || c == '_' || Text.isIdStart c

/-- The character may follow in an identifier; the zero-width joiners may. -/
def isContinue (c : Char) : Bool :=
  c == '$' || c.toNat == 0x200C || c.toNat == 0x200D || Text.isIdContinue c

/-- The name has the shape of an identifier. -/
def isIdentifier (name : String) : Bool :=
  match name.toList with
  | [] => false
  | first :: rest => isStart first && rest.all isContinue

/-- The name can be declared. -/
def isBinding (name : String) : Bool := isIdentifier name && !reservedWords.contains name

/-- Accept a name that can be declared, and say what is wrong with any other. -/
def check (name : String) : Except Error Unit :=
  if name.isEmpty then .error (.invalidName name .empty)
  else if !isIdentifier name then .error (.invalidName name .notIdentifier)
  else if reservedWords.contains name then .error (.invalidName name .reserved)
  else .ok ()

/-- The check accepts exactly the names that can be declared. -/
theorem check_eq_ok_iff (name : String) : check name = .ok () ↔ isBinding name = true := by
  unfold check isBinding
  by_cases he : name.isEmpty
  · have : name = "" := String.isEmpty_iff.mp he
    subst this
    simp [isIdentifier]
  · by_cases hi : isIdentifier name <;> by_cases hr : reservedWords.contains name <;>
      simp_all

end Minifier.Name
