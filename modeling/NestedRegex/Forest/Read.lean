import NestedRegex.Forest.Basic
import NestedRegex.Value

namespace NestedRegex.Forest

mutual

/-- Add the sequences of a value to a forest; the answer is the node that stands for the value. -/
def load (f : Forest) : Value → Node × Forest
  | .scalar s => (.scalar s, f)
  | .seq items =>
    let (nodes, f) := f.loadItems items
    let (id, f) := f.alloc nodes
    (.seq id, f)

/-- Load values from left to right. -/
def loadItems (f : Forest) : List Value → List Node × Forest
  | [] => ([], f)
  | v :: vs =>
    let (node, f) := f.load v
    let (nodes, f) := f.loadItems vs
    (node :: nodes, f)

end

/-- The forest of no sequences, which only loading turns into one with a root. -/
def bare : Forest :=
  ⟨#[], ⟨0⟩⟩

/-- A forest with one more sequence, which is its root. -/
def rooted (loaded : List Node × Forest) : Forest :=
  let (root, f) := loaded.2.alloc loaded.1
  { f with root }

/-- The forest that holds just this value. A scalar becomes the only child of the root. -/
def ofValue : Value → Forest
  | .scalar s => rooted ([.scalar s], bare)
  | .seq items => rooted (bare.loadItems items)

/-- Read a node, through at most `depth` sequences inside one another. -/
def readWithin (f : Forest) : Nat → Node → Except Fault Value
  | _, .scalar s => .ok (.scalar s)
  | 0, .seq _ => .error .endless
  | depth + 1, .seq id => do
    let nodes ← f.children id
    return .seq (← nodes.mapM (f.readWithin depth))

/-- The value that a node stands for. A way down through more sequences than the forest has meets
one of them twice, and so has no end; the step beyond their number tells it from a way to a missing
sequence. -/
def read (f : Forest) (n : Node) : Except Fault Value :=
  f.readWithin (f.size + 1) n

def readSeq (f : Forest) (id : SeqName) : Except Fault Value :=
  f.read (.seq id)

/-- The value of the root. -/
def toValue (f : Forest) : Except Fault Value :=
  f.readSeq f.root

/-- Copy a node with everything below it into new sequences. -/
def copy (f : Forest) (n : Node) : Except Fault (Node × Forest) :=
  f.load <$> f.read n

end NestedRegex.Forest
