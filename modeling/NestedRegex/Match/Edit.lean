import NestedRegex.Forest.Reachable
import NestedRegex.Forest.Word
import NestedRegex.Match.Basic

namespace NestedRegex

/-- The place of a span that is moved, or lost, where it may fail to be reckoned where it goes. -/
def Place.reckon (move : Span → Except Fault (Option Span)) : Place → Except Fault Place
  | .held s => do
    match ← move s with
    | some t => return .held t
    | none => return .invalidated
  | place => return place

/-- An edit of a match. What was done before a failure stays done. -/
abbrev Edit (α : Type) := EStateM (Failure HandleError) Match α

namespace Edit

/-- Ask the match. -/
def ask (question : Match → Except HandleError α) : Edit α := fun m =>
  match question m with
  | .ok a => .ok a m
  | .error e => .error (.error e) m

/-- Ask the forest. -/
def look (question : Forest → Except Fault α) : Edit α := fun m =>
  match question m.forest with
  | .ok a => .ok a m
  | .error e => .error (.fault e) m

/-- Add to the forest. -/
def add (step : Forest → α × Forest) : Edit α :=
  modifyGet fun m =>
    let (a, forest) := step m.forest
    (a, { m with forest })

/-- Put in the row that the forest answers with for a sequence, past the handles. -/
def putRow (id : SeqName) (question : Forest → Except Fault (α × Row)) : Edit α := do
  let (a, row) ← look question
  modify fun m => { m with forest := m.forest.setRow id row }
  return a

/-- Put nodes in the place of the children from `start` up to `stop`, past the handles; the answer
is the nodes that were there. -/
def spliceIn (id : SeqName) (start stop : Nat) (nodes : List Node) : Edit (List Node) :=
  putRow id (·.spliced id start stop nodes)

/-- Put nodes in the place of a span, past the handles. -/
def splice (s : Span) (nodes : List Node) : Edit (List Node) :=
  spliceIn s.seq s.start s.stop nodes

/-- Write over one child, past the handles. -/
def setChild (id : SeqName) (index : Nat) (node : Node) : Edit Unit := do
  let _ ← putRow id (·.overwritten id index node)

/-- Copy a node with everything below it into new sequences. -/
def copy (n : Node) : Edit Node := do
  let v ← look (·.read n)
  add (·.load v)

/-- Move every span that is held, or lose it. -/
def movePlaces (move : Nat → Span → Option Span) : Edit Unit :=
  modify fun m =>
    { m with places := m.places.mapIdx fun i place =>
        match place with
        | .held s => match move i s with
          | some t => .held t
          | none => .invalidated
        | place => place }

/-- Move every span that is held, or lose it, where it may fail to be reckoned where a span goes. -/
def reckonPlaces (move : Nat → Span → Except Fault (Option Span)) : Edit Unit := fun m =>
  match m.places.zipIdx.mapM fun entry => entry.1.reckon (move entry.2) with
  | .ok places => .ok () { m with places }
  | .error e => .error (.fault e) m

end Edit

namespace Match

/-- Put nodes in the place of a handle's nodes. Nodes that lead back to the handle's own sequence
are refused. Where spans stop is for `stop` to say, and `move` moves them: it is told the span of
the handle and which sequences stay. -/
def replaceBy (stop : Span → Nat) (move : Span → (SeqName → Bool) → Edit Unit) (h : Handle)
    (nodes : List Node) : Edit Unit := do
  let old ← Edit.ask (·.span h)
  let _ ← Edit.ask (·.contentUpTo stop h)
  let kept ← Edit.look (·.reachable nodes)
  if old.seq ∈ kept then
    throw (.error (.cyclicReplace ((← get).nameAt h.index)))
  let removed ← Edit.spliceIn old.seq old.start (stop old) nodes
  let gone ← Edit.look (·.reachable removed)
  move old fun id => id ∉ gone || id ∈ kept

/-- Put nodes in the place of a handle's nodes. The handle then has the new nodes, and a span that
shared a position with the old ones or lay below them is lost. -/
def replace (h : Handle) (nodes : List Node) : Edit Unit :=
  replaceBy Span.stop (fun old stays => Edit.movePlaces fun i s =>
    let moved := if i = h.index then some { old with length := nodes.length }
      else s.whenReplaced old nodes.length
    moved.filter fun s => stays s.seq) h nodes

/-- Put nodes in the place of a handle's nodes, with words for the bounds of spans. -/
def replaceInWords (h : Handle) (nodes : List Node) : Edit Unit :=
  replaceBy Word.stop (fun old stays =>
    let count := nodes.length % Word.limit
    Edit.reckonPlaces fun i s =>
      let moved := if i = h.index then .ok (some { old with length := count })
        else Word.whenReplaced s old count
      Option.filter (fun s => stays s.seq) <$> moved) h nodes

/-- Put new values in the place of a handle's nodes. -/
def putValues (h : Handle) (values : List Value) : Edit Unit := do
  let _ ← Edit.ask (·.content h)
  let nodes ← Edit.add (·.loadItems values)
  replace h nodes

/-- Put copies of another handle's nodes in the place of a handle's nodes. -/
def putCopies (h source : Handle) : Edit Unit := do
  let _ ← Edit.ask (·.content h)
  let nodes ← Edit.ask (·.content source)
  let copies ← nodes.mapM Edit.copy
  replace h copies

/-- Exchange the nodes of two handles, which must not overlap or lie one below the other. Where
spans stop is for `stop` to say, and `move` moves them: it is told the two spans, in their order if
they lie in one sequence. -/
def swapBy (stop : Span → Nat) (move : Span → Span → Edit Unit) (a b : Handle) : Edit Unit := do
  let first ← Edit.ask (·.span a)
  let second ← Edit.ask (·.span b)
  let firstNodes ← Edit.ask (·.contentUpTo stop a)
  let secondNodes ← Edit.ask (·.contentUpTo stop b)
  let below ← Edit.look (·.reachable firstNodes)
  let nested ← if second.seq ∈ below then pure true else
    (fun above => decide (first.seq ∈ above)) <$> Edit.look (·.reachable secondNodes)
  if first.overlapsUpTo stop second || nested then
    let m ← get
    throw (.error (.swapOverlap (m.nameAt a.index) (m.nameAt b.index)))
  let flip := first.seq = second.seq && second.beforeUpTo stop first
  let (x, xNodes, y, yNodes) :=
    if flip then (second, secondNodes, first, firstNodes)
    else (first, firstNodes, second, secondNodes)
  let _ ← Edit.spliceIn y.seq y.start (stop y) xNodes
  let _ ← Edit.spliceIn x.seq x.start (stop x) yNodes
  move x y

/-- Exchange the nodes of two handles. Every span goes where its content goes. -/
def swap (a b : Handle) : Edit Unit :=
  swapBy Span.stop (fun x y => Edit.movePlaces fun _ s => s.whenSwapped x y) a b

/-- Exchange the nodes of two handles, with words for the bounds of spans. -/
def swapInWords (a b : Handle) : Edit Unit :=
  swapBy Word.stop (fun x y => Edit.reckonPlaces fun _ s => Word.whenSwapped s x y) a b

end Match

end NestedRegex
