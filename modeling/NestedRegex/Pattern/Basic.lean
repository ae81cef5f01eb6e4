import NestedRegex.Forest.Basic

namespace NestedRegex

/-- A test of one node. Its error is a text, and ends the search that asked. -/
abbrev Test := Forest → Node → Except (Failure String) Bool

/-- What some consecutive nodes have to look like. -/
inductive Pattern where
  /-- One node that is this scalar. -/
  | literal (atom : Scalar)
  /-- One node that is a sequence, all of whose children match the items. -/
  | sequence (items : List Pattern)
  /-- Any one node. -/
  | any
  /-- The nodes that match the items, remembered under a name. No items stand for any one node. -/
  | named (name : String) (items : List Pattern)
  /-- The nodes that match one of the alternatives, earlier ones preferred. -/
  | choice (alternatives : List Pattern)
  /-- One or more matches in a row, as many as possible preferred. -/
  | oneOrMore (body : Pattern)
  /-- Nodes of the same shape as those remembered under a name. -/
  | backRef (name : String)
  /-- One node that passes a test. -/
  | check (name : String) (test : Test)
  /-- No nodes, at the end of the sequence. -/
  | atEnd
  deriving Inhabited

namespace Pattern

/-- Remember the one node that is matched, whatever it is. -/
def capture (name : String) : Pattern :=
  .named name [.any]

/-- Remember the nodes that match the items; with no items, any one node. -/
def captureSpan (name : String) : List Pattern → Pattern
  | [] => capture name
  | items => .named name items

/-- A test that cannot fail. -/
def holds (name : String) (test : Forest → Node → Bool) : Pattern :=
  .check name fun f n => .ok (test f n)

/-- The scalar that is this text. -/
def string (s : String) : Pattern :=
  .literal (.string s)

end Pattern

end NestedRegex
