import NestedRegex.Decimal.Shortest

namespace NestedRegex.Decimal

/-- The choices that a written form leaves open. -/
structure FloatFormat where
  tie : Tie
  /-- The least power of ten of a first digit that is written with a point. -/
  leastPlain : Int
  /-- The greatest one. -/
  greatestPlain : Int
  /-- A positive power is written with a plus sign. -/
  plus : Bool

/-- The form of values: plain from `1e-4` and below `1e16`, powers without a plus sign. -/
def FloatFormat.shown : FloatFormat :=
  ⟨.up, -4, 15, false⟩

/-- The form of JSON numbers: plain from `1e-5` and below `1e16`, powers with a sign. -/
def FloatFormat.json : FloatFormat :=
  ⟨.even, -5, 15, true⟩

/-- Digits with a point after the first `whole` of them; zeros fill the places that they leave. -/
def plain (digits : List Char) (whole : Int) : List Char :=
  if whole ≤ 0 then
    '0' :: '.' :: List.replicate (-whole).toNat '0' ++ digits
  else
    let wholePart := digits.take whole.toNat
    let zeros := List.replicate (whole.toNat - digits.length) '0'
    let rest := digits.drop whole.toNat
    wholePart ++ zeros ++ '.' :: if rest = [] then ['0'] else rest

/-- Digits with a point after the first and a power of ten. -/
def scientific (format : FloatFormat) (digits : List Char) (power : Int) : List Char :=
  let point := match digits with
    | first :: second :: rest => first :: '.' :: second :: rest
    | short => short
  let sign := if power < 0 then ['-'] else if format.plus then ['+'] else []
  point ++ 'e' :: sign ++ Nat.toDigits 10 power.natAbs

/-- The text of a finite positive number. -/
def Binary.chars (format : FloatFormat) (b : Binary) : List Char :=
  let shortest := b.shortest format.tie
  let digits := Nat.toDigits 10 shortest.digits
  let whole := shortest.exponent + digits.length
  if format.leastPlain ≤ whole - 1 && whole - 1 ≤ format.greatestPlain then
    plain digits whole
  else
    scientific format digits (whole - 1)

/-- A minus sign for negative numbers. -/
def minus (negative : Bool) : List Char :=
  if negative then ['-'] else []

/-- The text of an integer. -/
def intChars (i : Int) : List Char :=
  minus (i < 0) ++ Nat.toDigits 10 i.natAbs

/-- The text of the number with these bits. -/
def floatChars (format : FloatFormat) (bits : UInt64) : List Char :=
  match Float64.ofBits bits with
  | .zero negative => minus negative ++ ['0', '.', '0']
  | .finite negative size => minus negative ++ size.chars format
  | .infinite negative => minus negative ++ ['i', 'n', 'f']
  | .notNumber => ['N', 'a', 'N']

example : floatChars .shown 0x3fb999999999999a = "0.1".toList := by decide +kernel

example : floatChars .shown 0x4341c37937e08000 = "1e16".toList ∧
    floatChars .json 0x4341c37937e08000 = "1e+16".toList := by decide +kernel

example : floatChars .shown 1 = "5e-324".toList := by decide +kernel

/-- A tie goes up in one form and to the even digit in the other. -/
example : floatChars .shown 0x3e60000000000000 = "2.9802322387695313e-8".toList ∧
    floatChars .json 0x3e60000000000000 = "2.9802322387695312e-8".toList := by decide +kernel

end NestedRegex.Decimal
