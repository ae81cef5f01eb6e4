import NestedRegex.Decimal.Format
import NestedRegex.Text.Quoted
import NestedRegex.Value

namespace NestedRegex

/-- The shown text of a scalar. -/
def Scalar.text : Scalar → String
  | .null => "null"
  | .bool b => toString b
  | .int i => String.ofList (Decimal.intChars i.toInt)
  | .float bits => String.ofList (Decimal.floatChars .shown bits)
  | .string s => Text.quoted s

namespace Value

mutual

/-- Write the shown text of a value after `before`. -/
def writeText (before : String) : Value → String
  | .scalar s => before ++ s.text
  | .seq [] => before ++ "[]"
  | .seq (v :: vs) => writeRest (writeText (before ++ "[") v) vs ++ "]"

/-- Write the items that follow the first one. -/
def writeRest (before : String) : List Value → String
  | [] => before
  | v :: vs => writeRest (writeText (before ++ ", ") v) vs

end

/-- The shown text of a value, such as `[1, "a", [null]]`. -/
def text (v : Value) : String :=
  writeText "" v

end Value

end NestedRegex
