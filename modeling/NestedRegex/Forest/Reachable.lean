import NestedRegex.Forest.Basic
import NestedRegex.Forest.NameSet
import NestedRegex.Progress

namespace NestedRegex.Forest

/-- A way through a forest: the names that are still to be followed, and those that were. -/
structure Trace where
  pending : List SeqName
  seen : NameSet

/-- Follow the first pending name, unless that was done before. -/
def follow (f : Forest) : Trace → Progress Trace (Except Fault NameSet)
  | ⟨[], seen⟩ => .done (.ok seen)
  | ⟨id :: pending, seen⟩ =>
    if id ∈ seen then .more ⟨pending, seen⟩
    else
      match f.children id with
      | .error e => .done (.error e)
      | .ok nodes => .more ⟨nodes.filterMap Node.seq? ++ pending, seen.insert id⟩

/-- Every sequence that some nodes reach, themselves included. Every step but the last settles one
pending name, and a sequence adds its children only once, so there are never more of these steps
than pending names and child places together. -/
def reachable (f : Forest) (nodes : List Node) : Except Fault NameSet :=
  let ids := nodes.filterMap Node.seq?
  match Progress.finish f.follow (fun _ => ids.length + f.placeCount) ⟨ids, .empty⟩ with
  | .done result => result
  | .more _ => .error .endless

end NestedRegex.Forest
