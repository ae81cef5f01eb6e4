namespace NestedRegex

/-- The place of a captured name among the names of a program. -/
structure Slot where
  index : Nat
  deriving DecidableEq

/-- The names entered so far, in the order of their slots, and a map from names to slots. An entry
of the map hides those made before it. -/
structure Symbols where
  names : List String := []
  slots : List (String × Slot) := []

namespace Symbols

def slot? (t : Symbols) (name : String) : Option Slot :=
  t.slots.lookup name

/-- The slot of a name. One that has none yet is entered in both places. -/
def intern (t : Symbols) (name : String) : Slot × Symbols :=
  match t.slot? name with
  | some slot => (slot, t)
  | none =>
    let slot : Slot := ⟨t.names.length⟩
    (slot, { names := t.names ++ [name], slots := (name, slot) :: t.slots })

end Symbols

end NestedRegex
