namespace NestedRegex.Decimal

/-- A finite positive number `mantissa * 2 ^ exponent`. A number whose mantissa is the least of its
binade has a neighbour below at half the usual distance. -/
structure Binary where
  mantissa : Nat
  exponent : Int
  closeBelow : Bool

/-- The parts of a binary64 number. -/
inductive Float64 where
  | zero (negative : Bool)
  | finite (negative : Bool) (size : Binary)
  | infinite (negative : Bool)
  | notNumber

/-- Take the bits of a binary64 number apart: one for the sign, eleven for the exponent, and 52 for
the fraction. -/
def Float64.ofBits (bits : UInt64) : Float64 :=
  let code := bits.toNat
  let leading := Nat.pow 2 52
  let negative := code.testBit 63
  let field : Nat := code / leading % 2048
  let fraction := code % leading
  if field = 2047 then
    if fraction = 0 then .infinite negative else .notNumber
  else if field = 0 then
    if fraction = 0 then .zero negative else .finite negative ⟨fraction, -1074, false⟩
  else
    .finite negative ⟨leading + fraction, (field : Int) - 1075, fraction = 0 && field ≠ 1⟩

def Float64.isFinite : Float64 → Bool
  | .zero _ | .finite _ _ => true
  | .infinite _ | .notNumber => false

/-- Which of two equally near decimals is taken. -/
inductive Tie where
  | up
  | even
  deriving DecidableEq

/-- The decimal `digits * 10 ^ exponent`. -/
structure Digits where
  digits : Nat
  exponent : Int

/-- The multiples of `10 ^ exponent` beside a number, with everything scaled to natural numbers: the
number is `value / unit` steps, and the numbers that read back as it lie from `low` to `high`. -/
structure Grid where
  unit : Nat
  value : Nat
  low : Nat
  high : Nat
  endsRead : Bool

/-- The multiples of `10 ^ exponent` beside a binary number, in quarters of its last place. The ends
of the interval read back exactly if the mantissa is even. -/
def Binary.grid (b : Binary) (exponent : Int) : Grid :=
  let quarter := b.exponent - 2
  let scale := Nat.pow 2 quarter.toNat * Nat.pow 10 (-exponent).toNat
  { unit := Nat.pow 10 exponent.toNat * Nat.pow 2 (-quarter).toNat
    value := 4 * b.mantissa * scale
    low := (4 * b.mantissa - if b.closeBelow then 1 else 2) * scale
    high := (4 * b.mantissa + 2) * scale
    endsRead := b.mantissa % 2 = 0 }

/-- The step reads back as the number. -/
def Grid.reads (g : Grid) (step : Nat) : Bool :=
  let point := step * g.unit
  if g.endsRead then g.low ≤ point && point ≤ g.high else g.low < point && point < g.high

/-- The nearest step that reads back, if any does. Only the two neighbours of the number count. -/
def Grid.nearest? (g : Grid) (tie : Tie) : Option Nat :=
  let below := g.value / g.unit
  let above := below + 1
  match g.reads below, g.reads above with
  | false, false => none
  | true, false => some below
  | false, true => some above
  | true, true =>
    let toBelow := g.value - below * g.unit
    let toAbove := above * g.unit - g.value
    if toBelow < toAbove then some below
    else if toAbove < toBelow then some above
    else match tie with
      | .up => some above
      | .even => some (if below % 2 = 0 then below else above)

/-- Try finer and finer grids. -/
def Binary.search (b : Binary) (tie : Tie) : Nat → Int → Option Digits
  | 0, _ => none
  | grids + 1, exponent =>
    match (b.grid exponent).nearest? tie with
    | some digits => some ⟨digits, exponent⟩
    | none => b.search tie grids (exponent - 1)

/-- An exponent whose power of ten is above the number: `30103 / 100000` is a little more than the
logarithm of two. -/
def Binary.ceiling (b : Binary) : Int :=
  (b.mantissa.log2 + b.exponent + 1) * 30103 / 100000 + 1

/-- The shortest decimal for a number. Seventeen digits always suffice, and the ceiling is at most a
few places above the first of them. -/
def Binary.shortest (b : Binary) (tie : Tie) : Digits :=
  (b.search tie 24 b.ceiling).getD ⟨0, 0⟩

end NestedRegex.Decimal
