import NestedRegex.Match.Edit
import NestedRegex.Text.Upper

namespace NestedRegex.Pass

/-- A scalar text in upper case. -/
def upperString (s : String) : Scalar :=
  .string (Text.upper s)

/-- The upper case of a node; a node that is no text counts as the empty one. -/
def upperValue (n : Node) : Value :=
  .scalar (upperString (n.string?.getD ""))

/-- Put the upper case of a name in its place. -/
def upcaseName (thing : Handle) : Edit Unit := do
  let node ← Edit.ask (·.first thing)
  Match.putValues thing [upperValue node]

/-- Write the name that a declaration begins with in upper case, where it stands. A declaration that
begins with no text is left alone. -/
def upcaseDeclaration (declaration : SeqName) : Edit Unit := do
  match (← Edit.look (·.child? declaration 0)).bind Node.string? with
  | some name =>
    Edit.setChild declaration 0 (.scalar (upperString name))
  | none => return

/-- Write all declared names in upper case. -/
def upcaseDeclarations (defs : Handle) : Edit Unit := do
  match (← Edit.ask (·.first defs)).seq? with
  | some list =>
    let declarations ← Edit.look (·.children list)
    (declarations.filterMap Node.seq?).forM upcaseDeclaration
  | none => return

/-- Put a new list of parameters, all in upper case, in the place of the old one. -/
def upcaseParameters (args : Handle) : Edit Unit := do
  let node ← Edit.ask (·.first args)
  let parameters ← Edit.look (·.childrenOf node)
  Match.putValues args [.seq ((parameters.getD []).map upperValue)]

/-- The comparison that holds where the given one does not. All but `<=` count as `>=`. -/
def flipped (operator : Node) : String :=
  if operator.string? = some "<=" then ">" else "<"

/-- Turn a comparison around and exchange the branches that it decides between. -/
def flipComparison (operator thenBranch elseBranch : Handle) : Edit Unit := do
  let node ← Edit.ask (·.first operator)
  Match.putValues operator [.scalar (.string (flipped node))]
  Match.swap elseBranch thenBranch

/-- Make the edits whose names the match bound, in this order. -/
def edits : Edit Unit := do
  if let some thing := (← get).get? "thing" then
    upcaseName thing
  if let some defs := (← get).get? "defs" then
    upcaseDeclarations defs
  if let some args := (← get).get? "args" then
    upcaseParameters args
  let m ← get
  if let (some operator, some t, some e) := (m.get? "operator", m.get? "t", m.get? "e") then
    flipComparison operator t e
  let m ← get
  if let (some block, some statement) := (m.get? "one_block", m.get? "one_stat") then
    Match.putCopies block statement

end NestedRegex.Pass
