import NestedRegex.Scalar

namespace NestedRegex

/-- A scalar or a sequence of values. -/
inductive Value where
  | scalar (atom : Scalar)
  | seq (items : List Value)
  deriving Inhabited

namespace Value

def scalar? : Value → Option Scalar
  | .scalar s => some s
  | .seq _ => none

def items? : Value → Option (List Value)
  | .scalar _ => none
  | .seq items => some items

def string? (v : Value) : Option String :=
  v.scalar?.bind Scalar.string?

mutual

/-- Equality of two values is decided scalar by scalar, left to right. -/
def decEq : (v w : Value) → Decidable (v = w)
  | .scalar s, .scalar t =>
    if h : s = t then isTrue (h ▸ rfl) else isFalse fun he => h (Value.scalar.inj he)
  | .scalar _, .seq _ => isFalse nofun
  | .seq _, .scalar _ => isFalse nofun
  | .seq vs, .seq ws =>
    match decEqItems vs ws with
    | isTrue h => isTrue (h ▸ rfl)
    | isFalse h => isFalse fun he => h (Value.seq.inj he)

/-- Equality of two lists of values. -/
def decEqItems : (vs ws : List Value) → Decidable (vs = ws)
  | [], [] => isTrue rfl
  | [], _ :: _ => isFalse nofun
  | _ :: _, [] => isFalse nofun
  | v :: vs, w :: ws =>
    match decEq v w with
    | isFalse h => isFalse fun he => h (List.cons.inj he).1
    | isTrue h =>
      match decEqItems vs ws with
      | isTrue hs => isTrue (h ▸ hs ▸ rfl)
      | isFalse hs => isFalse fun he => hs (List.cons.inj he).2

end

instance : DecidableEq Value := decEq

end Value

end NestedRegex
