import NestedRegex.Forest.Same
import NestedRegex.Program.Basic
import NestedRegex.Progress

namespace NestedRegex

/-- A test reported an error. -/
structure TestError where
  check : String
  message : String
  deriving DecidableEq

def TestError.text (e : TestError) : String :=
  "check `" ++ e.check ++ "` failed: " ++ e.message

/-- The spans of a match: the whole of it, and those of the captures that took part. -/
structure Captures where
  whole : Span
  slots : List (Option Span)
  deriving DecidableEq

namespace Captures

def slot (b : Captures) (slot : Slot) : Option Span :=
  b.slots[slot.index]?.join

/-- The span of a captured name. -/
def get? (b : Captures) (p : Program) (name : String) : Option Span :=
  (p.slot? name).bind b.slot

end Captures

/-- Where to go on after a nested sequence. -/
structure Enclosing where
  seq : SeqName
  resume : Nat
  deriving DecidableEq

/-- A choice to come back to, or a change to undo. -/
inductive TrailMark where
  | choice (address : Nat) (seq : SeqName) (position : Nat)
  | bound (slot : Slot) (previous : Option Span)
  | started (slot : Slot) (previous : Nat)
  | entered
  | left (outer : Enclosing)
  deriving DecidableEq

/-- The state of the machine. `steps` counts the instructions obeyed since the machine was new, over
all the programs that it ran. -/
structure Machine where
  address : Nat
  home : SeqName
  first : Nat
  seq : SeqName
  position : Nat
  outers : List Enclosing
  bindings : List (Option Span)
  starts : List Nat
  trail : List TrailMark
  steps : Nat
  deriving DecidableEq

namespace Machine

/-- A machine that has not run. -/
def new : Machine :=
  ⟨0, ⟨0⟩, 0, ⟨0⟩, 0, [], [], [], [], 0⟩

/-- The machine at the start of a program, at a position of a sequence. Of what it was before, only
the count of steps is left. -/
def start (m : Machine) (p : Program) (seq : SeqName) (position : Nat) : Machine :=
  ⟨0, seq, position, seq, position, [], List.replicate p.captureCount none,
    List.replicate p.captureCount 0, [], m.steps⟩

/-- Step over some nodes and on to the next instruction. -/
def stepOver (m : Machine) (count : Nat) : Machine :=
  { m with address := m.address + 1, position := m.position + count }

/-- Go back to the latest choice on a trail and undo what was done after it. -/
def unwind (m : Machine) : List TrailMark → Option Machine
  | [] => none
  | .choice address seq position :: trail => some { m with address, seq, position, trail }
  | .bound slot previous :: trail =>
    { m with bindings := m.bindings.set slot.index previous }.unwind trail
  | .started slot previous :: trail =>
    { m with starts := m.starts.set slot.index previous }.unwind trail
  | .entered :: trail => { m with outers := m.outers.tail }.unwind trail
  | .left outer :: trail => { m with outers := outer :: m.outers }.unwind trail

/-- The machine at the latest choice; none if no choice is left. -/
def backtrack (m : Machine) : Option Machine :=
  m.unwind m.trail

/-- The number of nodes here that have the shape of a capture. There are none if the capture is
unbound or its span is no longer there, or if the nodes here differ. -/
def backRefLength (f : Forest) (m : Machine) (bound : Option Span) : Except Fault (Option Nat) :=
  match bound.bind f.nodes? with
  | none => return none
  | some want => do
    let row ← f.row m.seq
    let stop := m.position + want.length
    if stop ≤ row.size then
      let here := (row.extract m.position stop).toList
      return if ← f.sameNodes want here then some want.length else none
    else
      return none

/-- Ask a test about a node. -/
def ask (f : Forest) (p : Program) (index : Nat) (n : Node) : Except (Failure TestError) Bool :=
  match p.checks[index]? with
  | none => .error (.fault (.unknownCheck index))
  | some (name, test) => (test f n).mapError (Failure.map fun message => ⟨name, message⟩)

/-- Obey one instruction; no machine comes out if it cannot be obeyed here. -/
def obey (f : Forest) (p : Program) (m : Machine) :
    Instr → Except (Failure TestError) (Option Machine)
  | .scalar s => do
    let node ← orFault (f.child? m.seq m.position)
    return if node = some (.scalar s) then some (m.stepOver 1) else none
  | .any => do
    let length ← orFault (f.length m.seq)
    return if m.position < length then some (m.stepOver 1) else none
  | .enter => do
    match ← orFault (f.child? m.seq m.position) with
    | some (.seq inner) =>
      return some { m with
        address := m.address + 1, seq := inner, position := 0
        outers := ⟨m.seq, m.position + 1⟩ :: m.outers, trail := .entered :: m.trail }
    | _ => return none
  | .exit => do
    let length ← orFault (f.length m.seq)
    match m.outers with
    | outer :: outers =>
      if m.position = length then
        return some { m with
          address := m.address + 1, seq := outer.seq, position := outer.resume
          outers, trail := .left outer :: m.trail }
      else
        return none
    | [] => return none
  | .atEnd => do
    let length ← orFault (f.length m.seq)
    return if m.position = length then some (m.stepOver 0) else none
  | .openSlot slot =>
    match m.starts[slot.index]? with
    | none => throw (.fault (.unknownSlot slot.index))
    | some previous =>
      return some { m with
        address := m.address + 1, starts := m.starts.set slot.index m.position
        trail := .started slot previous :: m.trail }
  | .closeSlot slot =>
    match m.bindings[slot.index]?, m.starts[slot.index]? with
    | some previous, some start =>
      let span := some ⟨m.seq, start, m.position - start⟩
      return some { m with
        address := m.address + 1, bindings := m.bindings.set slot.index span
        trail := .bound slot previous :: m.trail }
    | _, _ => throw (.fault (.unknownSlot slot.index))
  | .backRef slot =>
    match m.bindings[slot.index]? with
    | none => throw (.fault (.unknownSlot slot.index))
    | some bound => do
      let length ← orFault (m.backRefLength f bound)
      return length.map m.stepOver
  | .check index => do
    match ← orFault (f.child? m.seq m.position) with
    | none => return none
    | some node => return if ← ask f p index node then some (m.stepOver 1) else none
  | .split first second =>
    return some { m with
      address := first, trail := .choice second m.seq m.position :: m.trail }
  | .jump target => return some { m with address := target }
  | .accept => return none

/-- What a run of the machine ends with: the captures of a match or none, and the machine. -/
abbrev Outcome :=
  Except (Failure TestError) (Option Captures × Machine)

/-- The captures of a machine that has come to accept. -/
def accepted (m : Machine) : Captures :=
  ⟨⟨m.home, m.first, m.position - m.first⟩, m.bindings⟩

/-- Obey the next instruction, or go back to a choice where that cannot be done. -/
def step (f : Forest) (p : Program) (m : Machine) : Progress Machine Outcome :=
  let m := { m with steps := m.steps + 1 }
  match p.code[m.address]? with
  | none => .done (.error (.fault (.badInstruction m.address)))
  | some Instr.accept => .done (.ok (some m.accepted, m))
  | some inst =>
    match m.obey f p inst with
    | .error e => .done (.error e)
    | .ok (some m) => .more m
    | .ok none =>
      match m.backtrack with
      | some m => .more m
      | none => .done (.ok (none, m))

end Machine

end NestedRegex
