import NestedRegex.Fault
import NestedRegex.Scalar
import NestedRegex.Forest.Span

namespace NestedRegex

/-- A child of a sequence. Equality of nodes is shallow: it compares names, not content. -/
inductive Node where
  | scalar (atom : Scalar)
  | seq (id : SeqName)
  deriving DecidableEq, Inhabited

namespace Node

def scalar? : Node → Option Scalar
  | .scalar s => some s
  | .seq _ => none

def seq? : Node → Option SeqName
  | .scalar _ => none
  | .seq id => some id

def string? (n : Node) : Option String :=
  n.scalar?.bind Scalar.string?

def isSeq (n : Node) : Bool :=
  n.seq?.isSome

/-- The null scalar. -/
def isNull : Node → Bool
  | .scalar s => s.isNull
  | .seq _ => false

end Node

/-- The children of one sequence, in order. -/
abbrev Row := Array Node

/-- Sequences of nodes, named by their place, and the name of the root. -/
structure Forest where
  rows : Array Row
  root : SeqName
  deriving DecidableEq

namespace Forest

/-- The forest of one empty sequence, its root. -/
def empty : Forest :=
  ⟨#[#[]], ⟨0⟩⟩

instance : Inhabited Forest := ⟨empty⟩

/-- The number of sequences, whether or not they can be reached. -/
def size (f : Forest) : Nat :=
  f.rows.size

def contains (f : Forest) (id : SeqName) : Bool :=
  id.index < f.size

def row? (f : Forest) (id : SeqName) : Option Row :=
  f.rows[id.index]?

def row (f : Forest) (id : SeqName) : Except Fault Row :=
  match f.row? id with
  | some row => .ok row
  | none => .error (.missingSequence id)

def children? (f : Forest) (id : SeqName) : Option (List Node) :=
  (f.row? id).map Array.toList

def children (f : Forest) (id : SeqName) : Except Fault (List Node) :=
  Array.toList <$> f.row id

def length (f : Forest) (id : SeqName) : Except Fault Nat :=
  Array.size <$> f.row id

/-- The child at a position, if the sequence is that long. -/
def child? (f : Forest) (id : SeqName) (index : Nat) : Except Fault (Option Node) :=
  (·[index]?) <$> f.row id

/-- The children of a sequence from `start` up to `stop`; none if there is no such range. -/
def nodesIn? (f : Forest) (id : SeqName) (start stop : Nat) : Option (List Node) := do
  let row ← f.row? id
  if start ≤ stop ∧ stop ≤ row.size then some (row.extract start stop).toList else none

/-- The nodes of a span; none if its sequence is missing or too short. -/
def nodes? (f : Forest) (s : Span) : Option (List Node) :=
  f.nodesIn? s.seq s.start s.stop

/-- A new sequence of these nodes, after all others. -/
def alloc (f : Forest) (nodes : List Node) : SeqName × Forest :=
  (⟨f.size⟩, { f with rows := f.rows.push nodes.toArray })

/-- The forest with another row for one of its sequences. -/
def setRow (f : Forest) (id : SeqName) (row : Row) : Forest :=
  { f with rows := f.rows.setIfInBounds id.index row }

/-- The forest with other children for one of its sequences. -/
def setChildren (f : Forest) (id : SeqName) (nodes : List Node) : Forest :=
  f.setRow id nodes.toArray

/-- What a write over one child takes out, and the row that it leaves. -/
def overwritten (f : Forest) (id : SeqName) (index : Nat) (node : Node) :
    Except Fault (Node × Row) := do
  let row ← f.row id
  match row[index]? with
  | some old => return (old, row.setIfInBounds index node)
  | none => throw (.missingChild id index)

/-- What a splice in the place of the children from `start` up to `stop` takes out, and the row that
it leaves. -/
def spliced (f : Forest) (id : SeqName) (start stop : Nat) (new : List Node) :
    Except Fault (List Node × Row) := do
  let row ← f.row id
  if start ≤ stop ∧ stop ≤ row.size then
    return ((row.extract start stop).toList,
      row.extract 0 start ++ new.toArray ++ row.extract stop row.size)
  else
    throw (.badRange id start stop)

/-- Write over one child; the answer is the node that was there. -/
def setChild (f : Forest) (id : SeqName) (index : Nat) (node : Node) :
    Except Fault (Node × Forest) := do
  let (old, row) ← f.overwritten id index node
  return (old, f.setRow id row)

/-- Put nodes in the place of the children from `start` up to `stop`; the answer is the nodes that
were there. -/
def splice (f : Forest) (id : SeqName) (start stop : Nat) (new : List Node) :
    Except Fault (List Node × Forest) := do
  let (removed, row) ← f.spliced id start stop new
  return (removed, f.setRow id row)

/-- The number of child places in all sequences together. -/
def placeCount (f : Forest) : Nat :=
  f.rows.foldl (fun total row => total + row.size) 0

/-- The children of a node; none for a scalar. -/
def childrenOf (f : Forest) : Node → Except Fault (Option (List Node))
  | .scalar _ => .ok none
  | .seq id => some <$> f.children id

/-- The child of a node at a position, if it is a sequence of that length. -/
def childOf (f : Forest) (n : Node) (index : Nat) : Except Fault (Option Node) :=
  match n with
  | .scalar _ => .ok none
  | .seq id => f.child? id index

/-- The string that a sequence begins with. -/
def tag? (f : Forest) (n : Node) : Except Fault (Option String) :=
  return (← f.childOf n 0).bind Node.string?

theorem row_eq_ok_iff {f : Forest} {id : SeqName} {row : Row} :
    f.row id = .ok row ↔ f.row? id = some row := by
  unfold Forest.row
  split <;> simp_all

theorem children_eq_ok_iff {f : Forest} {id : SeqName} {nodes : List Node} :
    f.children id = .ok nodes ↔ f.children? id = some nodes := by
  unfold children children? Forest.row
  split <;> simp_all [Functor.map, Except.map]

theorem length_eq (f : Forest) (id : SeqName) :
    f.length id = List.length <$> f.children id := by
  unfold length children
  cases f.row id <;> simp [Functor.map, Except.map]

theorem child?_eq (f : Forest) (id : SeqName) (index : Nat) :
    f.child? id index = (·[index]?) <$> f.children id := by
  unfold child? children
  cases f.row id <;> simp [Functor.map, Except.map]

theorem nodes?_eq (f : Forest) (s : Span) :
    f.nodes? s = (f.children? s.seq).bind fun nodes =>
      if s.stop ≤ nodes.length then some ((nodes.drop s.start).take s.length) else none := by
  unfold nodes? nodesIn? children?
  cases f.row? s.seq with
  | none => rfl
  | some row =>
    simp only [Option.bind_eq_bind, Option.bind_some, Option.map_some, Array.toList_extract,
      List.extract, Span.stop, Nat.add_sub_cancel_left, Array.length_toList, Nat.le_add_right,
      true_and]
    rfl

theorem setChild_eq (f : Forest) (id : SeqName) (index : Nat) (node : Node) :
    f.setChild id index node = (f.children id).bind fun nodes =>
      match nodes[index]? with
      | some old => .ok (old, f.setChildren id (nodes.set index node))
      | none => .error (.missingChild id index) := by
  unfold setChild overwritten children
  cases f.row id with
  | error e => rfl
  | ok row =>
    cases h : row[index]? <;>
      simp [h, bind, Except.bind, Functor.map, Except.map, setChildren, pure, Except.pure, throw,
        throwThe, MonadExceptOf.throw, ← Array.toList_setIfInBounds]

theorem splice_eq (f : Forest) (id : SeqName) (start stop : Nat) (new : List Node) :
    f.splice id start stop new = (f.children id).bind fun nodes =>
      if start ≤ stop ∧ stop ≤ nodes.length then
        .ok ((nodes.take stop).drop start,
          f.setChildren id (nodes.take start ++ new ++ nodes.drop stop))
      else .error (.badRange id start stop) := by
  unfold splice spliced children
  cases f.row id with
  | error e => rfl
  | ok row =>
    by_cases h : start ≤ stop ∧ stop ≤ row.size
    · have rest : (row.toList.drop stop).take (row.size - stop) = row.toList.drop stop :=
        List.take_of_length_le (by simp)
      have kept : row.extract 0 start ++ new.toArray ++ row.extract stop row.size =
          (row.toList.take start ++ new ++ row.toList.drop stop).toArray := by
        apply Array.toList_inj.1
        simp [List.extract, rest]
      simp [h, bind, Except.bind, Functor.map, Except.map, pure, Except.pure, setChildren, kept,
        List.drop_take]
    · simp [h, bind, Except.bind, Functor.map, Except.map, throw, throwThe, MonadExceptOf.throw]

theorem children?_isSome_iff {f : Forest} {id : SeqName} :
    (f.children? id).isSome = true ↔ f.contains id = true := by
  by_cases h : id.index < f.rows.size <;> simp [children?, row?, contains, size, h]

@[simp] theorem size_setChildren (f : Forest) (id : SeqName) (nodes : List Node) :
    (f.setChildren id nodes).size = f.size := by
  simp [setChildren, setRow, size]

theorem children?_setChildren (f : Forest) (id other : SeqName) (nodes : List Node) :
    (f.setChildren id nodes).children? other =
      if id = other ∧ f.contains id = true then some nodes else f.children? other := by
  obtain ⟨i⟩ := id
  obtain ⟨j⟩ := other
  by_cases h : i = j
  · subst h
    by_cases hi : i < f.rows.size
    · simp [setChildren, setRow, children?, row?, contains, size, hi]
    · simp [setChildren, setRow, children?, row?, contains, size, hi]
  · simp [setChildren, setRow, children?, row?, h, Array.getElem?_setIfInBounds_ne h]

theorem children?_alloc (f : Forest) (nodes : List Node) (id : SeqName) :
    (f.alloc nodes).2.children? id =
      if id = (f.alloc nodes).1 then some nodes else f.children? id := by
  obtain ⟨i⟩ := id
  by_cases h : i = f.rows.size <;> simp [alloc, children?, row?, size, Array.getElem?_push, h]

end Forest

end NestedRegex
