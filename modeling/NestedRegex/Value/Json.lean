import NestedRegex.Json.Reader
import NestedRegex.Json.Writer
import NestedRegex.Value

namespace NestedRegex

/-- Why a text is not the JSON of a value. -/
inductive Value.ParseError where
  | malformed
  /-- An object stands where the indices lead from the root. -/
  | object (path : List Nat)
  deriving DecidableEq

def Value.ParseError.message : Value.ParseError → String
  | .malformed => "invalid JSON"
  | .object path =>
    "objects are not supported (at $" ++ String.join (path.map fun i => "[" ++ i.repr ++ "]") ++ ")"

/-- A document's number as a scalar. -/
def JsonNumber.scalar : JsonNumber → Scalar
  | .integer i =>
    if Int64.minValue.toInt ≤ i ∧ i ≤ Int64.maxValue.toInt then .int (Int64.ofInt i)
    else .float (Float.ofInt i).toBits
  | .float bits => .float bits

/-- A scalar as a document. A float that is infinite or not a number has no JSON form and becomes
null. -/
def Scalar.toJson : Scalar → Json
  | .null => .null
  | .bool b => .bool b
  | .int i => .number (.integer i.toInt)
  | .float bits => if (Decimal.Float64.ofBits bits).isFinite then .number (.float bits) else .null
  | .string s => .string s

namespace Value

mutual

def toJson : Value → Json
  | .scalar s => s.toJson
  | .seq items => .array (toJsonItems items)

def toJsonItems : List Value → List Json
  | [] => []
  | v :: vs => toJson v :: toJsonItems vs

end

mutual

/-- The value of a document that stands at some path. -/
def ofJsonAt (path : List Nat) : Json → Except Value.ParseError Value
  | .null => .ok (.scalar .null)
  | .bool b => .ok (.scalar (.bool b))
  | .number n => .ok (.scalar n.scalar)
  | .string s => .ok (.scalar (.string s))
  | .array items => .seq <$> ofJsonItems path 0 items
  | .object _ => .error (.object path.reverse)

/-- The values of the items of an array from some index on. Paths are kept innermost index first. -/
def ofJsonItems (path : List Nat) (index : Nat) : List Json → Except Value.ParseError (List Value)
  | [] => .ok []
  | x :: xs => do
    let v ← ofJsonAt (index :: path) x
    let vs ← ofJsonItems path (index + 1) xs
    return v :: vs

end

/-- The value of a document; the first object in it is an error. -/
def ofJson (document : Json) : Except Value.ParseError Value :=
  ofJsonAt [] document

/-- Read a value from JSON text. -/
def parse (text : String) : Except Value.ParseError Value :=
  match Json.read? text with
  | some document => ofJson document
  | none => .error .malformed

/-- Write a value as JSON text. -/
def render (layout : Json.Layout) (v : Value) : String :=
  v.toJson.text layout

end Value

end NestedRegex
