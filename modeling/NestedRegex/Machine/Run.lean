import NestedRegex.Machine.Basic
import NestedRegex.Progress

namespace NestedRegex

/-- The length of the longest sequence. -/
def Forest.longest (f : Forest) : Nat :=
  f.rows.foldl (fun longest row => max longest row.size) 0

namespace Machine

/-- A level of steps that no run of a compiled pattern uses up. -/
def fullLevel (f : Forest) (p : Program) : Nat :=
  Nat.pow (f.longest + 2) p.size

/-- Run the machine until it accepts or has no choice left. -/
def finish (f : Forest) (p : Program) (m : Machine) : Outcome :=
  match Progress.finish (step f p) (fun _ => fullLevel f p) m with
  | .done outcome => outcome
  | .more _ => .error (.fault .endless)

/-- Run a program at a position of a sequence. -/
def run (m : Machine) (f : Forest) (p : Program) (seq : SeqName) (position : Nat) : Outcome :=
  (m.start p seq position).finish f p

end Machine

/-- Match a program against the children of a sequence from a position on. -/
def Program.match? (p : Program) (f : Forest) (seq : SeqName) (position : Nat) :
    Except (Failure TestError) (Option Captures) :=
  return (← Machine.new.run f p seq position).1

end NestedRegex
