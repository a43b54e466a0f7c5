import Minifier.Decimal.Style
import Minifier.Value.Basic

/-!
# The text of a value

What a value is as a string. A number is written with the fewest digits that read back as
it, positionally from `0.000001` up to, not including, `1e21`.
-/

namespace Minifier

namespace Value

/-- Numbers in programs: positional from `1e-6` to below `1e21`, without a fraction where there is
none; of two equally near decimals the greater. -/
def numberStyle : Decimal.Style where
  least := -6
  greatest := 20
  wholeFraction := false
  tie := .up

/-- The text of a number. Zero has none of its signs. -/
def numberText (x : Float) : String :=
  match Double.parts x with
  | .notANumber => "NaN"
  | .infinity s => signText s ++ "Infinity"
  | .zero _ => "0"
  | .finite s m e _ => signText s ++ String.ofList (numberStyle.write m e)
where
  /-- The mark of a negative number. -/
  signText (s : Float.Model.UnpackedFloat.Sign) : String := if s == .negative then "-" else ""

mutual

/-- The text of a value. -/
def text : Value → String
  | .undefined => "undefined"
  | .null => "null"
  | .bool b => if b then "true" else "false"
  | .number x => numberText x
  | .string s => s
  | .array items => ",".intercalate (itemTexts items)
  | .object _ => "[object Object]"

/-- The texts of the items of an array, where `undefined` and `null` leave no trace. -/
def itemTexts : List Value → List String
  | [] => []
  | item :: rest => (if item.isNullish then "" else text item) :: itemTexts rest

end

end Value

end Minifier
