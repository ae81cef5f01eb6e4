import NestedRegex.Forest.NameSet
import NestedRegex.Machine.Run
import NestedRegex.Match.Edit

namespace NestedRegex

/-- What is to happen after a match. -/
inductive Search.Next where
  | proceed
  | stop
  deriving DecidableEq

structure Search.Options where
  /-- Only the first position of each sequence is tried. -/
  anchored : Bool := false
  /-- Nested sequences are visited; otherwise only the root is. -/
  descend : Bool := true
  /-- The search stops after so many matches. -/
  limit : Option Nat := none
  deriving DecidableEq

/-- The counts of a finished search. -/
structure Search.Counts where
  found : Nat
  sequences : Nat
  attempts : Nat
  steps : Nat
  /-- The search ended before all was visited, as it was told to or at its limit. -/
  stopped : Bool
  deriving DecidableEq

/-- Why a search ended early. -/
inductive Search.Error where
  | test (e : TestError)
  | capture (e : HandleError)
  /-- An error that the receiver of the matches raised. -/
  | callback (message : String)
  deriving DecidableEq

namespace Search.Error

def message : Search.Error → String
  | .test e => e.text
  | .capture e => e.message
  | .callback message => "match callback failed: " ++ message

/-- The text of the error underneath, if there is one. -/
def source : Search.Error → Option String
  | .test e => some e.text
  | .capture e => some e.message
  | .callback _ => none

end Search.Error

/-- What is done with a match at hand and with data of one's own. -/
abbrev Receiving (σ α : Type) :=
  EStateM (Failure Search.Error) (Match × σ) α

/-- The receiver of the matches: it may edit the match and keep data of its own. -/
abbrev Receiver (σ : Type) :=
  Receiving σ Search.Next

/-- An edit by a receiver. -/
def Edit.received (edit : Edit α) : Receiving σ α := fun (m, data) =>
  match edit m with
  | .ok a m => .ok a (m, data)
  | .error e m => .error (e.map .capture) (m, data)

namespace Search

/-- Something left to do. -/
inductive Task where
  /-- Scan a sequence and what is nested in it, unless that was done before. -/
  | visit (seq : SeqName)
  /-- Go on with the scan of a sequence. -/
  | scan (seq : SeqName) (position : Nat)
  /-- Visit what is nested in a sequence, from a child on. -/
  | descend (seq : SeqName) (index : Nat)
  deriving DecidableEq

/-- A search on its way, apart from the forest: what was visited, the counts so far, and what is
left to do. -/
structure Walk where
  machine : Machine
  visited : NameSet
  found : Nat
  sequences : Nat
  attempts : Nat
  agenda : List Task

/-- A search on its way through the forest as it is now. -/
structure State (σ : Type) where
  walk : Walk
  forest : Forest
  data : σ

/-- The end of a search: its counts or its error, with the forest and the data as they are then. -/
structure Result (σ : Type) where
  outcome : Except (Failure Search.Error) Search.Counts
  forest : Forest
  data : σ

variable {σ : Type}

def Walk.counts (w : Walk) (stopped : Bool) : Search.Counts :=
  ⟨w.found, w.sequences, w.attempts, w.machine.steps, stopped⟩

/-- Where a scan goes on after a match that was found at `position`, when its sequence had `before`
children at that time and has `after` now. A whole match that is still held says where it stops;
otherwise what is behind it has moved by the change of length. A position that neither lies ahead
nor comes from a loss of children is passed over, so that the scan gets on. -/
def resumeAt (position : Nat) (found : Span) (held : Option Span) (before after : Nat) : Nat :=
  let resume := match held with
    | some s => if s.seq = found.seq then s.stop else found.stop + after - before
    | none => found.stop + after - before
  if position < resume ∨ after < before then max resume position else position + 1

/-- Visit a sequence for the first time. -/
def Walk.visit (w : Walk) (options : Search.Options) (seq : SeqName) (rest : List Task) : Walk :=
  { w with
    visited := w.visited.insert seq, sequences := w.sequences + 1
    agenda := .scan seq 0 :: if options.descend then .descend seq 0 :: rest else rest }

/-- Hand a match to the receiver and go on as it says. -/
def receive (p : Program) (options : Search.Options) (receiver : Receiver σ)
    (position before : Nat) (b : Captures) (rest : List Task) :
    State σ → Progress (State σ) (Result σ)
  | ⟨w, forest, data⟩ =>
    let m := Match.ofCaptures w.found p forest b
    let w := { w with found := w.found + 1 }
    match receiver (m, data) with
    | .error e (m, data) => .done ⟨.error e, m.forest, data⟩
    | .ok next (m, data) =>
      if next = .stop ∨ options.limit.any (· ≤ w.found) then
        .done ⟨.ok (w.counts true), m.forest, data⟩
      else
        match m.forest.length b.whole.seq with
        | .error e => .done ⟨.error (.fault e), m.forest, data⟩
        | .ok after =>
          let resume := resumeAt position b.whole (m.span m.whole).toOption before after
          .more ⟨{ w with agenda := .scan b.whole.seq resume :: rest }, m.forest, data⟩

/-- Try one position of a sequence. -/
def attempt (p : Program) (options : Search.Options) (receiver : Receiver σ)
    (seq : SeqName) (position length : Nat) (rest : List Task) :
    State σ → Progress (State σ) (Result σ)
  | ⟨w, forest, data⟩ =>
    let w := { w with attempts := w.attempts + 1 }
    match w.machine.run forest p seq position with
    | .error e => .done ⟨.error (e.map .test), forest, data⟩
    | .ok (none, machine) =>
      .more ⟨{ w with machine, agenda := .scan seq (position + 1) :: rest }, forest, data⟩
    | .ok (some b, machine) =>
      receive p options receiver position length b rest ⟨{ w with machine }, forest, data⟩

/-- Do the first thing on the agenda. -/
def step (p : Program) (options : Search.Options) (receiver : Receiver σ) :
    State σ → Progress (State σ) (Result σ)
  | ⟨w, forest, data⟩ =>
    match w.agenda with
    | [] => .done ⟨.ok (w.counts false), forest, data⟩
    | .visit seq :: rest =>
      if seq ∈ w.visited then .more ⟨{ w with agenda := rest }, forest, data⟩
      else if forest.contains seq then .more ⟨w.visit options seq rest, forest, data⟩
      else .done ⟨.error (.fault (.missingSequence seq)), forest, data⟩
    | .scan seq position :: rest =>
      match forest.length seq with
      | .error e => .done ⟨.error (.fault e), forest, data⟩
      | .ok length =>
        if position < length ∧ ¬(options.anchored ∧ 0 < position) then
          attempt p options receiver seq position length rest ⟨w, forest, data⟩
        else
          .more ⟨{ w with agenda := rest }, forest, data⟩
    | .descend seq index :: rest =>
      match forest.child? seq index with
      | .error e => .done ⟨.error (.fault e), forest, data⟩
      | .ok (some (.seq inner)) =>
        let agenda := .visit inner :: .descend seq (index + 1) :: rest
        .more ⟨{ w with agenda }, forest, data⟩
      | .ok (some (.scalar _)) =>
        .more ⟨{ w with agenda := .descend seq (index + 1) :: rest }, forest, data⟩
      | .ok none => .more ⟨{ w with agenda := rest }, forest, data⟩

/-- A search that has not begun. -/
def start (f : Forest) (data : σ) : State σ :=
  ⟨⟨.new, .empty, 0, 0, 0, [.visit f.root]⟩, f, data⟩

end Search

/-- Search a forest for the matches of a program, with at most `2 ^ level` tasks. -/
def Program.search (p : Program) (options : Search.Options) (level : Nat) (receiver : Receiver σ)
    (f : Forest) (data : σ) : Search.Result σ :=
  if options.limit = some 0 then
    ⟨.ok ⟨0, 0, 0, 0, true⟩, f, data⟩
  else
    match Progress.run (Search.step p options receiver) level (Search.start f data) with
    | .done result => result
    | .more s => ⟨.error (.fault .endless), s.forest, s.data⟩

end NestedRegex
