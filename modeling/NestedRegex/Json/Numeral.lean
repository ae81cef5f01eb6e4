import NestedRegex.Json.Basic

namespace NestedRegex.Json

/-- A numeral such as `-12.50e3`: its digits before and after the point, and its power of ten. -/
structure Numeral where
  negative : Bool
  whole : List Char
  fraction : List Char
  power : Option Int

/-- The number of a decimal digit. -/
def digitValue (c : Char) : Nat :=
  c.toNat - '0'.toNat

/-- Append digits to a number for as long as it stays below `2 ^ 64`; the digits that no longer fit
are left over. -/
def gather (n : Nat) : List Char → Nat × List Char
  | [] => (n, [])
  | c :: cs =>
    if 10 * n + digitValue c < UInt64.size then gather (10 * n + digitValue c) cs else (n, c :: cs)

/-- The binary64 number `10 ^ n`. -/
def powerOfTen (n : Nat) : Float :=
  Float.ofScientific 1 false n

/-- A binary64 number times a power of ten, in steps of at most 308 places. There is none when the
result is too large; one that is too small becomes zero. -/
def scaled? (x : Float) (power : Int) : Option Float :=
  if power.natAbs ≤ 308 then
    if 0 ≤ power then
      let y := x * powerOfTen power.natAbs
      if y.isInf then none else some y
    else
      some (x / powerOfTen power.natAbs)
  else if x == 0 then some x
  else if 0 ≤ power then none
  else scaled? (x / powerOfTen 308) (power + 308)
termination_by power.natAbs
decreasing_by omega

/-- An integer numeral. A negative one beyond 64 bits becomes a float, and so does negative zero. -/
def integerNumber (negative : Bool) (n : Nat) : JsonNumber :=
  if !negative then .integer n
  else if n = 0 || UInt64.size < 2 * n then .float (-(UInt64.ofNat n).toFloat).toBits
  else .integer (-n)

/-- The number of a numeral; none if it is too large. -/
def Numeral.number? (t : Numeral) : Option JsonNumber :=
  let (n, beyond) := gather 0 t.whole
  if beyond = [] && t.fraction = [] && t.power = none then
    some (integerNumber t.negative n)
  else do
    let (n, unread) := gather n t.fraction
    let places : Int := beyond.length - (t.fraction.length - unread.length)
    let x ← scaled? (UInt64.ofNat n).toFloat (places + t.power.getD 0)
    some (.float (if t.negative then -x else x).toBits)

end NestedRegex.Json
