import NestedRegex.Pattern.Basic
import NestedRegex.Pattern.Error
import NestedRegex.Program.Symbols

namespace NestedRegex.Pattern

/-- The names of the first list, then the others of the second. -/
def joinNames (xs ys : List String) : List String :=
  xs ++ ys.filter (· ∉ xs)

theorem mem_joinNames {xs ys : List String} {name : String} :
    name ∈ joinNames xs ys ↔ name ∈ xs ∨ name ∈ ys := by
  by_cases h : name ∈ xs <;> simp [joinNames, h]

mutual

/-- Enter the names that a part captures. A name may be captured only once on any one way through
the pattern; `live` are those captured before the part, and those after it are given back. -/
def declare (path : Path) (live : List String) (table : Symbols) :
    Pattern → Except Error (List String × Symbols)
  | .named name items =>
    if name = "" then .error ⟨.emptyCaptureName, path⟩
    else if name ∈ live then .error ⟨.duplicateCapture name, path⟩
    else declareItems path 0 (name :: live) (table.intern name).2 items
  | .sequence items => declareItems path 0 live table items
  | .choice alternatives => declareAlternatives path 0 live live table alternatives
  | .oneOrMore body => declare (path ++ [.body]) live table body
  | .literal _ | .any | .backRef _ | .check _ _ | .atEnd => .ok (live, table)

/-- Each item comes after those before it. -/
def declareItems (path : Path) (index : Nat) (live : List String) (table : Symbols) :
    List Pattern → Except Error (List String × Symbols)
  | [] => .ok (live, table)
  | p :: ps => do
    let (live, table) ← declare (path ++ [.item index]) live table p
    declareItems path (index + 1) live table ps

/-- Alternatives exclude each other, so each of them comes after what is before all of them and may
capture a name that another one captures. They share one table. -/
def declareAlternatives (path : Path) (index : Nat) (before live : List String)
    (table : Symbols) : List Pattern → Except Error (List String × Symbols)
  | [] => .ok (live, table)
  | p :: ps => do
    let (branch, table) ← declare (path ++ [.alternative index]) before table p
    declareAlternatives path (index + 1) before (joinNames live branch) table ps

end

end NestedRegex.Pattern
