import NestedRegex.Program.Basic
import NestedRegex.Value.Text

namespace NestedRegex

def Slot.text (slot : Slot) : String :=
  "SlotId(" ++ slot.index.repr ++ ")"

def Instr.text : Instr → String
  | .scalar s => "Scalar(" ++ s.text ++ ")"
  | .any => "Any"
  | .enter => "Enter"
  | .exit => "Exit"
  | .atEnd => "End"
  | .openSlot slot => "Open(" ++ slot.text ++ ")"
  | .closeSlot slot => "Close(" ++ slot.text ++ ")"
  | .backRef slot => "BackRef(" ++ slot.text ++ ")"
  | .check index => "Check(" ++ index.repr ++ ")"
  | .split first second =>
    "Split \x7b first: " ++ first.repr ++ ", second: " ++ second.repr ++ " \x7d"
  | .jump target => "Jump(" ++ target.repr ++ ")"
  | .accept => "Match"

/-- A program with its names, the names of its tests, and its instructions. -/
def Program.text (p : Program) : String :=
  "CompiledPattern \x7b names: " ++ Text.bracketed (p.names.map Text.quoted) ++
    ", checks: " ++ Text.bracketed (p.checks.map fun c => Text.quoted c.1) ++
    ", program: " ++ Text.bracketed (p.code.toList.map Instr.text) ++ " \x7d"

end NestedRegex
