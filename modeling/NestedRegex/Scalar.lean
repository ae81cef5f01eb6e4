namespace NestedRegex

/-- An indivisible node. A float is given by its binary64 bits, so that a float equals itself even
when it is not a number, and the two zeros differ. -/
inductive Scalar where
  | null
  | bool (value : Bool)
  | int (value : Int64)
  | float (bits : UInt64)
  | string (value : String)
  deriving DecidableEq, Inhabited

namespace Scalar

/-- The five sorts of scalars. -/
inductive Kind where
  | null
  | bool
  | int
  | float
  | string
  deriving DecidableEq

/-- The short name of a kind, for diagnostics. -/
def Kind.name : Kind → String
  | .null => "null"
  | .bool => "bool"
  | .int => "int"
  | .float => "float"
  | .string => "str"

def kind : Scalar → Kind
  | .null => .null
  | .bool _ => .bool
  | .int _ => .int
  | .float _ => .float
  | .string _ => .string

def isNull (s : Scalar) : Bool :=
  s.kind = .null

def bool? : Scalar → Option Bool
  | .bool b => some b
  | _ => none

def int? : Scalar → Option Int64
  | .int i => some i
  | _ => none

/-- The bits of a float scalar. -/
def float? : Scalar → Option UInt64
  | .float bits => some bits
  | _ => none

def string? : Scalar → Option String
  | .string s => some s
  | _ => none

theorem isNull_iff {s : Scalar} : s.isNull = true ↔ s = .null := by
  cases s <;> simp [isNull, kind]

theorem string?_eq_some_iff {s : Scalar} {t : String} : s.string? = some t ↔ s = .string t := by
  cases s <;> simp [string?]

end Scalar

end NestedRegex
