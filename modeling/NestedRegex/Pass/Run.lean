import NestedRegex.Pass.Edits
import NestedRegex.Pass.Rules
import NestedRegex.Search.Basic
import NestedRegex.Value.Text

namespace NestedRegex

/-- What a pass did: the number of its matches, and a line for each finding. -/
structure Pass.Report where
  found : Nat
  findings : List String
  deriving DecidableEq

/-- Why a pass did not run to its end. -/
inductive Pass.Error where
  | compile (e : Pattern.Error)
  | search (e : Search.Error)
  deriving DecidableEq

namespace Pass.Error

def message : Pass.Error → String
  | .compile e => "invalid built-in pattern: " ++ e.message
  | .search e => "search failed: " ++ e.message

/-- The text of the error underneath. -/
def source : Pass.Error → String
  | .compile e => e.message
  | .search e => e.message

end Pass.Error

/-- The end of a pass: its report or its error, with the forest as it is then. -/
structure Pass.Result where
  outcome : Except (Failure Pass.Error) Pass.Report
  forest : Forest

namespace Pass

/-- The nodes of a captured name, as a sequence in brackets. -/
def captureLine (m : Match) (name : String) : Except (Failure Search.Error) String :=
  match m.get? name with
  | none => .error (.error (.callback ("capture `" ++ name ++ "` unbound")))
  | some h => do
    let values ← (m.values h).mapError (Failure.map .capture)
    return (Value.seq values).text

/-- The line for a repeated run. -/
def runLine (m : Match) : Except (Failure Search.Error) String := do
  let long ← captureLine m "F1"
  let short ← captureLine m "F2"
  return "F1 = " ++ long ++ ", F2 = " ++ short

/-- Edit each match. -/
def editing : Receiving (List String) Search.Next := do
  edits.received
  return .proceed

/-- Keep a line for each match, latest first. -/
def reporting : Receiver (List String) := fun (m, lines) =>
  match runLine m with
  | .ok line => .ok .proceed (m, line :: lines)
  | .error e => .error e (m, lines)

def receiver (pass : Pass) : Receiver (List String) :=
  if pass = .repeats then reporting else editing

/-- A level of tasks that no pass over this forest uses up: the tasks are at most polynomial in the
size of the forest. -/
def level (f : Forest) : Nat :=
  Progress.usualLevel + f.size + f.placeCount

/-- Run a pass over a forest. -/
def run (pass : Pass) (f : Forest) : Pass.Result :=
  match pass.program with
  | .error e => ⟨.error (.error (.compile e)), f⟩
  | .ok p =>
    let result := p.search {} (level f) pass.receiver f []
    let report := result.outcome.map fun counts => ⟨counts.found, result.data.reverse⟩
    ⟨report.mapError (Failure.map .search), result.forest⟩

end Pass

end NestedRegex
