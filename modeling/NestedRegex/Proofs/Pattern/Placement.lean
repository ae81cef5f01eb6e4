import NestedRegex.Pattern.Basic
import NestedRegex.Pattern.Error

namespace NestedRegex.Pattern

mutual

/-- Check one part; `endAllowed` says whether it may require the end. -/
def place (names : List String) (path : Pattern.Path) (endAllowed : Bool) :
    Pattern → Except Pattern.Error Unit
  | .sequence items => placeItems names path 0 true items
  | .named _ items => placeItems names path 0 false items
  | .choice [] => .error ⟨.emptyAlternation, path⟩
  | .choice (p :: ps) => placeAlternatives names path 0 (p :: ps)
  | .oneOrMore .atEnd => .error ⟨.anchorInRepeat, path ++ [.body]⟩
  | .oneOrMore body => place names (path ++ [.body]) false body
  | .backRef name => if name ∈ names then .ok () else .error ⟨.undeclaredBackRef name, path⟩
  | .atEnd => if endAllowed then .ok () else .error ⟨.misplacedAnchor, path⟩
  | .literal _ | .any | .check _ _ => .ok ()

/-- Check items from left to right; only the last of them may require the end, if any may. -/
def placeItems (names : List String) (path : Pattern.Path) (index : Nat) (endAllowed : Bool) :
    List Pattern → Except Pattern.Error Unit
  | [] => .ok ()
  | p :: ps => do
    place names (path ++ [.item index]) (endAllowed && ps.isEmpty) p
    placeItems names path (index + 1) endAllowed ps

def placeAlternatives (names : List String) (path : Pattern.Path) (index : Nat) :
    List Pattern → Except Pattern.Error Unit
  | [] => .ok ()
  | p :: ps => do
    place names (path ++ [.alternative index]) false p
    placeAlternatives names path (index + 1) ps

end

end NestedRegex.Pattern
