import NestedRegex.Forest.Basic
import NestedRegex.Forest.NameSet
import NestedRegex.Progress

namespace NestedRegex.Forest

/-- Something left to do on the way down from a sequence. -/
inductive Visit where
  /-- Follow the children of a sequence. -/
  | enter (id : SeqName)
  /-- All below a sequence has been followed. -/
  | leave (id : SeqName)
  deriving DecidableEq

/-- A way down: what is left to do, the sequences that were entered, and those of them that were
left again. The others that were entered lie above the place that the way has come to. -/
structure Descent where
  pending : List Visit
  entered : NameSet
  left : NameSet

/-- Do the first pending thing. A sequence that was left again is not followed a second time. -/
def descend (f : Forest) : Descent → Progress Descent Bool
  | ⟨[], _, _⟩ => .done false
  | ⟨.leave id :: pending, entered, left⟩ => .more ⟨pending, entered, left.insert id⟩
  | ⟨.enter id :: pending, entered, left⟩ =>
    if id ∈ left then .more ⟨pending, entered, left⟩
    else if id ∈ entered then .done true
    else
      match f.children? id with
      | none => .more ⟨pending, entered, left⟩
      | some nodes =>
        let below := (nodes.filterMap Node.seq?).map Visit.enter
        .more ⟨below ++ .leave id :: pending, entered.insert id, left⟩

/-- Whether following children from a sequence comes back to one that is still being followed. Every
step but the last settles one pending thing, and a sequence adds its children and its own leaving
only once, so there are never more of these steps than sequences and child places together, and one
for the first sequence. -/
def isCyclic (f : Forest) (id : SeqName) : Bool :=
  let start : Descent := ⟨[.enter id], .empty, .empty⟩
  match Progress.finish f.descend (fun _ => 1 + f.size + f.placeCount) start with
  | .done cyclic => cyclic
  | .more _ => false

end NestedRegex.Forest
