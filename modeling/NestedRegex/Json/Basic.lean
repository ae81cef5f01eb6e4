namespace NestedRegex

/-- A number of a document: an integer where the text is one that fits 64 bits, with or without a
sign, and the bits of a binary64 number otherwise. -/
inductive JsonNumber where
  | integer (value : Int)
  | float (bits : UInt64)
  deriving DecidableEq, Inhabited

/-- A JSON document. -/
inductive Json where
  | null
  | bool (value : Bool)
  | number (value : JsonNumber)
  | string (value : String)
  | array (items : List Json)
  | object (fields : List (String × Json))
  deriving Inhabited

end NestedRegex
