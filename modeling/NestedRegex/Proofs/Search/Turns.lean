import NestedRegex.Proofs.Match.Spared
import NestedRegex.Proofs.Search.Steps

namespace NestedRegex

namespace Search

variable {σ : Type} {p : Program} {options : Options} {receiver : Receiver σ} {s s' : State σ}
  {items : List Pattern}

/-- The receiver goes on after every match, and edits only as it is allowed to. -/
def Handles (allowed : Match.Operation → Prop) (receiver : Receiver σ) : Prop :=
  ∀ m data next m' data', receiver (m, data) = .ok next (m', data') →
    next = .proceed ∧ Match.Run allowed m m'

/-- A receiver that makes some operations, whether each is made or refused, and goes on. -/
def making (operations : Match → List Match.Operation) : Receiver σ := fun (m, data) =>
  .ok .proceed ((operations m).foldl (fun m op => op.after m) m, data)

theorem run_making {allowed : Match.Operation → Prop} {ops : List Match.Operation} {m : Match}
    (h : ∀ op ∈ ops, allowed op) : Match.Run allowed m (ops.foldl (fun m op => op.after m) m) := by
  induction ops generalizing m with
  | nil => exact .refl
  | cons op ops ih =>
    exact .head ⟨op, h op List.mem_cons_self, rfl⟩ (ih fun o ho => h o (List.mem_cons_of_mem _ ho))

theorem handles_making {allowed : Match.Operation → Prop}
    {operations : Match → List Match.Operation} (h : ∀ m, ∀ op ∈ operations m, allowed op) :
    Handles allowed (making operations : Receiver σ) := by
  intro m data next m' data' hrun
  cases hrun
  exact ⟨rfl, run_making (h m)⟩

/-- The pattern matches at the next position of a scan, and the receiver leaves the match as `m`. -/
structure Received (p : Program) (options : Options) (receiver : Receiver σ) (s : State σ)
    (seq : SeqName) (position : Nat) (b : Captures) (m : Match) (data : σ) : Prop where
  lt : position < (s.forest.nodesOf seq).length
  tried : ¬(options.anchored ∧ 0 < position)
  found : p.match? s.forest seq position = .ok (some b)
  given : receiver (.ofCaptures s.walk.found p s.forest b, s.data) = .ok .proceed (m, data)

/-- A step that goes on. -/
inductive Turn (p : Program) (options : Options) (receiver : Receiver σ) (s : State σ) :
    State σ → Prop
  | seen {seq rest} (agenda : s.walk.agenda = .visit seq :: rest) (there : seq ∈ s.walk.visited) :
    Turn p options receiver s { s with walk.agenda := rest }
  | entered {seq rest} (agenda : s.walk.agenda = .visit seq :: rest)
    (new : seq ∉ s.walk.visited) (there : s.forest.contains seq = true) :
    Turn p options receiver s { s with walk := s.walk.visit options seq rest }
  | scanned {seq position rest} (agenda : s.walk.agenda = .scan seq position :: rest)
    (past : ¬(position < (s.forest.nodesOf seq).length ∧ ¬(options.anchored ∧ 0 < position))) :
    Turn p options receiver s { s with walk.agenda := rest }
  | missed {seq position rest machine} (agenda : s.walk.agenda = .scan seq position :: rest)
    (there : s.forest.contains seq = true) (lt : position < (s.forest.nodesOf seq).length)
    (none : p.match? s.forest seq position = .ok none) :
    Turn p options receiver s { s with
      walk := { s.walk with
        machine, attempts := s.walk.attempts + 1, agenda := .scan seq (position + 1) :: rest } }
  | received {seq position rest machine b m data after}
    (agenda : s.walk.agenda = .scan seq position :: rest) (there : s.forest.contains seq = true)
    (here : Received p options receiver s seq position b m data)
    (length : m.forest.length b.whole.seq = .ok after) :
    Turn p options receiver s
      ⟨{ s.walk with
        machine, attempts := s.walk.attempts + 1, found := s.walk.found + 1
        agenda := .scan b.whole.seq (resumeAt position b.whole (m.span m.whole).toOption
          (s.forest.nodesOf seq).length after) :: rest }, m.forest, data⟩
  | nested {seq index inner rest} (agenda : s.walk.agenda = .descend seq index :: rest)
    (child : (s.forest.nodesOf seq)[index]? = some (.seq inner)) :
    Turn p options receiver s
      { s with walk.agenda := .visit inner :: .descend seq (index + 1) :: rest }
  | passed {seq index scalar rest} (agenda : s.walk.agenda = .descend seq index :: rest)
    (child : (s.forest.nodesOf seq)[index]? = some (.scalar scalar)) :
    Turn p options receiver s { s with walk.agenda := .descend seq (index + 1) :: rest }
  | ended {seq index rest} (agenda : s.walk.agenda = .descend seq index :: rest)
    (none : (s.forest.nodesOf seq)[index]? = none) :
    Turn p options receiver s { s with walk.agenda := rest }

/-- In a forest in good order a machine answers as a match does, whatever it did before. -/
theorem match?_of_run {f : Forest} {seq : SeqName} {machine machine' : Machine} {position : Nat}
    {answer : Option Captures} (hp : Program.compileAll items = .ok p) (hf : f.Closed)
    (ha : f.Acyclic) (hc : f.contains seq = true)
    (h : machine.run f p seq position = .ok (answer, machine')) :
    p.match? f seq position = .ok answer := by
  rw [Machine.match?_eq hp hf ha hc, ← Machine.run_eq hp hf ha hc machine, h]
  rfl

theorem run_of_match? {f : Forest} {seq : SeqName} {position : Nat} {answer : Option Captures}
    (hp : Program.compileAll items = .ok p) (hf : f.Closed) (ha : f.Acyclic)
    (hc : f.contains seq = true) (machine : Machine)
    (h : p.match? f seq position = .ok answer) :
    ∃ machine', machine.run f p seq position = .ok (answer, machine') := by
  rw [Machine.match?_eq hp hf ha hc, ← Machine.run_eq hp hf ha hc machine] at h
  cases hrun : machine.run f p seq position with
  | error e =>
    rw [hrun] at h
    cases h
  | ok result =>
    rw [hrun] at h
    obtain rfl := Except.ok.inj h
    exact ⟨result.2, rfl⟩

/-- All that a step can do when it goes on. -/
theorem turn_of_step (hp : Program.compileAll items = .ok p) (hf : s.forest.Closed)
    (ha : s.forest.Acyclic) (h : step p options receiver s = .more s') :
    Turn p options receiver s s' := by
  cases step_eq_more_iff.1 h with
  | seen agenda there => exact .seen agenda there
  | entered agenda new there => exact .entered agenda new there
  | scanned agenda _ past => exact .scanned agenda past
  | missed tries none =>
    exact .missed tries.agenda tries.there tries.lt (match?_of_run hp hf ha tries.there none)
  | received tries found given _ length =>
    have found := match?_of_run hp hf ha tries.there found
    exact .received tries.agenda tries.there ⟨tries.lt, tries.tried, found, given⟩ length
  | nested agenda _ child => exact .nested agenda child
  | passed agenda _ child => exact .passed agenda child
  | ended agenda _ none => exact .ended agenda none

/-- The last step of a search that every match lets go on: nothing is left to do. -/
theorem step_done {allowed : Match.Operation → Prop} {r : Result σ} {counts : Counts}
    (edits : Handles allowed receiver) (hl : options.limit = none)
    (h : step p options receiver s = .done r) (hr : r.outcome = .ok counts) :
    s.walk.agenda = [] ∧ r.forest = s.forest ∧ counts = s.walk.counts false := by
  cases step_eq_done_iff.1 h with
  | finished agenda => exact ⟨agenda, rfl, (Except.ok.inj hr).symm⟩
  | stopped _ _ given stop => simp [hl, (edits _ _ _ _ _ given).1] at stop
  | missing | unscanned | failed | refused | lost | undescended => cases hr

theorem Received.run {allowed : Match.Operation → Prop} {seq : SeqName} {position : Nat}
    {b : Captures} {m : Match} {data : σ} (edits : Handles allowed receiver)
    (hr : Received p options receiver s seq position b m data) :
    Match.Run allowed (.ofCaptures s.walk.found p s.forest b) m :=
  (edits _ _ _ _ _ hr.given).2

/-- The first step begins with the root. -/
theorem steps_start {f : Forest} (hroot : f.contains f.root = true) (data : σ) :
    Progress.steps (step p options receiver) 1 (start f data) =
      .more ⟨(start f data).walk.visit options f.root [], f, data⟩ :=
  Progress.steps_succ_more
    (step_eq_more_iff.2 (.entered rfl (NameSet.not_mem_empty f.root) hroot))

end Search

end NestedRegex
