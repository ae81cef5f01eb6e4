import NestedRegex.Pattern.Basic
import NestedRegex.Program.Symbols

namespace NestedRegex

/-- One instruction. The machine stands at a position of a sequence and goes on with the next
instruction unless told otherwise; where an instruction cannot be obeyed, it goes back to the latest
choice. -/
inductive Instr where
  /-- The node here is this scalar; step over it. -/
  | scalar (atom : Scalar)
  /-- There is a node here; step over it. -/
  | any
  /-- The node here is a sequence; go to the front of it. -/
  | enter
  /-- The sequence is used up; go on after it in the sequence that holds it. -/
  | exit
  /-- The sequence is used up. -/
  | atEnd
  /-- A capture begins here. -/
  | openSlot (slot : Slot)
  /-- A capture stops here. -/
  | closeSlot (slot : Slot)
  /-- The nodes here have the shape of a capture; step over them. -/
  | backRef (slot : Slot)
  /-- The node here passes the test with this number; step over it. -/
  | check (index : Nat)
  /-- Go on at `first`, and come back to go on at `second`. -/
  | split (first second : Nat)
  | jump (target : Nat)
  | accept
  deriving DecidableEq

/-- Instructions, with the names that their slots stand for, the slots of those names and the tests
that the instructions ask. -/
structure Program where
  code : Array Instr
  names : List String
  slots : List (String × Slot)
  checks : List (String × Test)

namespace Program

/-- The slot of a name, if the program captures it. -/
def slot? (p : Program) (name : String) : Option Slot :=
  p.slots.lookup name

/-- The name of a slot. -/
def nameOf (p : Program) (slot : Slot) : Except Fault String :=
  match p.names[slot.index]? with
  | some name => .ok name
  | none => .error (.unknownSlot slot.index)

def captureCount (p : Program) : Nat :=
  p.names.length

def size (p : Program) : Nat :=
  p.code.size

end Program

end NestedRegex
