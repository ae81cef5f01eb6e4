import NestedRegex.Forest.Read
import NestedRegex.Machine.Basic

namespace NestedRegex

/-- What one name of a match refers to now. -/
inductive Place where
  /-- The name took no part in the match. -/
  | unbound
  | held (span : Span)
  /-- An edit removed or cut the span. -/
  | invalidated
  deriving DecidableEq

namespace Place

def isBound (p : Place) : Bool :=
  p ≠ .unbound

end Place

/-- A reference to one span of one match: 0 is the whole match, and `i + 1` is slot `i`. -/
structure Handle where
  matchId : Nat
  index : Nat
  deriving DecidableEq

/-- A handle such as `Handle(0#2)`. -/
def Handle.text (h : Handle) : String :=
  "Handle(" ++ h.matchId.repr ++ "#" ++ h.index.repr ++ ")"

/-- Why a handle cannot be used as asked. -/
inductive HandleError where
  /-- The capture has no first node. -/
  | emptyCapture (name : String)
  | handleInvalidated (name : String)
  /-- The handle is not one of this match. -/
  | foreignHandle
  /-- The two spans share nodes, or one lies below the other. -/
  | swapOverlap (first second : String)
  /-- The new nodes lead back to the sequence that they are to stand in. -/
  | cyclicReplace (name : String)
  deriving DecidableEq

def HandleError.message : HandleError → String
  | .emptyCapture name => "capture `" ++ name ++ "` is empty"
  | .handleInvalidated name => "capture `" ++ name ++ "` was invalidated by an overlapping edit"
  | .foreignHandle => "handle does not belong to this match"
  | .swapOverlap first second =>
    "cannot swap overlapping captures `" ++ first ++ "` and `" ++ second ++ "`"
  | .cyclicReplace name => "replacement for capture `" ++ name ++ "` contains its own sequence"

/-- One match of a program, with the forest that it may edit. The first place is the whole match,
and those after it are the slots. -/
structure Match where
  id : Nat
  program : Program
  places : List Place
  forest : Forest

namespace Match

/-- The name of the whole match. -/
def wholeName : String :=
  "$match"

/-- A place for what a slot was bound to. -/
def placeOf : Option Span → Place
  | some s => .held s
  | none => .unbound

/-- A match just found. -/
def ofCaptures (id : Nat) (p : Program) (f : Forest) (b : Captures) : Match :=
  ⟨id, p, .held b.whole :: b.slots.map placeOf, f⟩

def whole (m : Match) : Handle :=
  ⟨m.id, 0⟩

/-- The handle of a name; none if the program does not have it or this match did not bind it. -/
def get? (m : Match) (name : String) : Option Handle :=
  if name = wholeName then some m.whole
  else do
    let slot ← m.program.slot? name
    let place ← m.places[slot.index + 1]?
    if place.isBound then some ⟨m.id, slot.index + 1⟩ else none

/-- The names that this match bound, in slot order. -/
def names (m : Match) : List String :=
  (m.program.names.zip m.places.tail).filterMap fun (name, place) =>
    if place.isBound then some name else none

/-- The name that a place goes by. -/
def nameAt (m : Match) : Nat → String
  | 0 => wholeName
  | i + 1 => m.program.names[i]?.getD ""

/-- The span of a handle. -/
def span (m : Match) (h : Handle) : Except HandleError Span :=
  if h.matchId ≠ m.id then .error .foreignHandle
  else
    match m.places[h.index]? with
    | some (.held s) => .ok s
    | some .invalidated => .error (.handleInvalidated (m.nameAt h.index))
    | some .unbound | none => .error .foreignHandle

/-- The handle is one of this match and still has its span. -/
def isValid (m : Match) (h : Handle) : Bool :=
  (m.span h).isOk

/-- The nodes of a handle, whose span stops where `stop` says. An edit made past the handles may
have left it nowhere. -/
def contentUpTo (stop : Span → Nat) (m : Match) (h : Handle) : Except HandleError (List Node) := do
  let s ← m.span h
  match m.forest.nodesIn? s.seq s.start (stop s) with
  | some nodes => return nodes
  | none => throw (.handleInvalidated (m.nameAt h.index))

/-- The nodes of a handle. -/
def content (m : Match) (h : Handle) : Except HandleError (List Node) :=
  m.contentUpTo Span.stop h

/-- The first node of a handle. -/
def first (m : Match) (h : Handle) : Except HandleError Node := do
  match (← m.content h).head? with
  | some node => return node
  | none => throw (.emptyCapture (m.nameAt h.index))

/-- The values of the nodes of a handle. -/
def values (m : Match) (h : Handle) : Except (Failure HandleError) (List Value) := do
  let nodes ← (m.content h).mapError .error
  orFault (nodes.mapM m.forest.read)

end Match

end NestedRegex
