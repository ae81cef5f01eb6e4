import NestedRegex.Program.Declare

namespace NestedRegex.Pattern

mutual

/-- The captured names, a part before what is inside it, with every repetition. -/
def captures : Pattern → List String
  | .named name items => name :: capturesOfItems items
  | .sequence items => capturesOfItems items
  | .choice alternatives => capturesOfItems alternatives
  | .oneOrMore body => captures body
  | .literal _ | .any | .backRef _ | .check _ _ | .atEnd => []

def capturesOfItems : List Pattern → List String
  | [] => []
  | p :: ps => captures p ++ capturesOfItems ps

end

/-- The captured names in the order of their first capture. -/
def names (items : List Pattern) : List String :=
  (capturesOfItems items).eraseDups

mutual

/-- The names captured on some way through a part, given those captured before it. -/
def scope (path : Pattern.Path) (before : List String) :
    Pattern → Except Pattern.Error (List String)
  | .named name items =>
    if name = "" then .error ⟨.emptyCaptureName, path⟩
    else if name ∈ before then .error ⟨.duplicateCapture name, path⟩
    else scopeOfItems path 0 (name :: before) items
  | .sequence items => scopeOfItems path 0 before items
  | .choice alternatives => scopeOfAlternatives path 0 before before alternatives
  | .oneOrMore body => scope (path ++ [.body]) before body
  | .literal _ | .any | .backRef _ | .check _ _ | .atEnd => .ok before

/-- Each item comes after those before it. -/
def scopeOfItems (path : Pattern.Path) (index : Nat) (before : List String) :
    List Pattern → Except Pattern.Error (List String)
  | [] => .ok before
  | p :: ps => do
    let before ← scope (path ++ [.item index]) before p
    scopeOfItems path (index + 1) before ps

/-- Each alternative comes after what is before all of them. -/
def scopeOfAlternatives (path : Pattern.Path) (index : Nat) (before all : List String) :
    List Pattern → Except Pattern.Error (List String)
  | [] => .ok all
  | p :: ps => do
    let branch ← scope (path ++ [.alternative index]) before p
    scopeOfAlternatives path (index + 1) before (joinNames all branch) ps

end

end NestedRegex.Pattern
