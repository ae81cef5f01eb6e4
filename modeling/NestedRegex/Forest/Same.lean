import NestedRegex.Forest.Basic

namespace NestedRegex

/-- Whether two lists are equally long and related place by place, asked from left to right up to
the first difference. -/
def sameItems (same : α → α → Except ε Bool) (xs ys : List α) : Except ε Bool :=
  if xs.length = ys.length then go xs ys else .ok false
where
  /-- The places that both lists have. -/
  go : List α → List α → Except ε Bool
    | x :: xs, y :: ys => do if ← same x y then go xs ys else return false
    | _, _ => .ok true

namespace Forest

/-- Compare two nodes through at most `depth` pairs of sequences inside one another. -/
def sameWithin (f : Forest) : Nat → Node → Node → Except Fault Bool
  | _, .scalar s, .scalar t => .ok (s = t)
  | _, .scalar _, .seq _ => .ok false
  | _, .seq _, .scalar _ => .ok false
  | 0, .seq a, .seq b => if a = b then .ok true else .error .endless
  | depth + 1, .seq a, .seq b =>
    if a = b then .ok true
    else do
      let xs ← f.children a
      let ys ← f.children b
      sameItems (f.sameWithin depth) xs ys

/-- The greatest number of pairs of sequences that a comparison can stand in without meeting one of
them again. -/
def pairDepth (f : Forest) : Nat :=
  f.size * f.size

/-- Whether two nodes stand for the same value. -/
def same (f : Forest) (a b : Node) : Except Fault Bool :=
  f.sameWithin f.pairDepth a b

/-- Whether two lists of nodes stand for the same values. -/
def sameNodes (f : Forest) (xs ys : List Node) : Except Fault Bool :=
  sameItems f.same xs ys

end Forest

end NestedRegex
