import NestedRegex.Pattern.Error
import NestedRegex.Program.Basic

namespace NestedRegex

/-- A program that is being written. -/
structure Draft where
  symbols : Symbols
  code : Array Instr := #[]
  checks : List (String × Test) := []

namespace Draft

/-- The address of the next instruction. -/
def next (d : Draft) : Nat :=
  d.code.size

def push (d : Draft) (i : Instr) : Draft :=
  { d with code := d.code.push i }

/-- The slot of a name, entered if need be. -/
def intern (d : Draft) (name : String) : Slot × Draft :=
  let (slot, symbols) := d.symbols.intern name
  (slot, { d with symbols })

/-- Ask a test: it gets the next number. -/
def ask (d : Draft) (name : String) (test : Test) : Draft :=
  { d with code := d.code.push (.check d.checks.length), checks := d.checks ++ [(name, test)] }

/-- Let the split at an address go on at another one if its first way fails. -/
def splitTo (d : Draft) (address second : Nat) : Draft :=
  match d.code[address]? with
  | some (.split first _) => { d with code := d.code.setIfInBounds address (.split first second) }
  | _ => d

/-- Let the jumps at some addresses lead to another one. -/
def jumpTo (d : Draft) (addresses : List Nat) (target : Nat) : Draft :=
  { d with code := addresses.foldl (fun code a => code.setIfInBounds a (.jump target)) d.code }

end Draft

namespace Pattern

mutual

/-- Write the code of a part; `endAllowed` says whether it may require the end. The end can be
required only by the last item of a whole pattern or of a nested sequence, a reference needs a
capture of its name somewhere, and a choice needs an alternative. -/
def emit (path : Path) (endAllowed : Bool) (d : Draft) : Pattern → Except Error Draft
  | .literal s => .ok (d.push (.scalar s))
  | .any => .ok (d.push .any)
  | .check name test => .ok (d.ask name test)
  | .sequence items => do
    let d ← emitItems path 0 true (d.push .enter) items
    return d.push .exit
  | .named name [] =>
    let (slot, d) := d.intern name
    .ok (((d.push (.openSlot slot)).push .any).push (.closeSlot slot))
  | .named name (p :: ps) => do
    let (slot, d) := d.intern name
    let d ← emitItems path 0 false (d.push (.openSlot slot)) (p :: ps)
    return d.push (.closeSlot slot)
  | .choice [] => .error ⟨.emptyAlternation, path⟩
  | .choice (p :: ps) => do
    let (exits, d) ← emitAlternatives path 0 [] d (p :: ps)
    return d.jumpTo exits d.next
  | .oneOrMore .atEnd => .error ⟨.anchorInRepeat, path ++ [.body]⟩
  | .oneOrMore body => do
    let top := d.next
    let d ← emit (path ++ [.body]) false d body
    return d.push (.split top (d.next + 1))
  | .backRef name =>
    match d.symbols.slot? name with
    | some slot => .ok (d.push (.backRef slot))
    | none => .error ⟨.undeclaredBackRef name, path⟩
  | .atEnd => if endAllowed then .ok (d.push .atEnd) else .error ⟨.misplacedAnchor, path⟩

/-- Write the code of items, one after the other; only the last of them may require the end, if any
may. -/
def emitItems (path : Path) (index : Nat) (endAllowed : Bool) (d : Draft) :
    List Pattern → Except Error Draft
  | [] => .ok d
  | p :: ps => do
    let d ← emit (path ++ [.item index]) (endAllowed && ps.isEmpty) d p
    emitItems path (index + 1) endAllowed d ps

/-- Write the code of alternatives. Each but the last has a split before it, which gets its second
address when the alternative is written, and a jump after it, which gets its address when all of
them are; `exits` are the addresses of these jumps. -/
def emitAlternatives (path : Path) (index : Nat) (exits : List Nat) (d : Draft) :
    List Pattern → Except Error (List Nat × Draft)
  | [] => .ok (exits, d)
  | [p] => do
    let d ← emit (path ++ [.alternative index]) false d p
    return (exits, d)
  | p :: q :: ps => do
    let split := d.next
    let d ← emit (path ++ [.alternative index]) false (d.push (.split (split + 1) 0)) p
    let leave := d.next
    let d := d.push (.jump 0)
    emitAlternatives path (index + 1) (exits ++ [leave]) (d.splitTo split d.next) (q :: ps)

end

end Pattern

end NestedRegex
