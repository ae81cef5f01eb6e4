import NestedRegex.Proofs.Forest.Spans
import NestedRegex.Proofs.Progress
import NestedRegex.Search.Basic

namespace NestedRegex.Search

variable {σ : Type}

/-- The first thing to do is to try a position of a sequence. -/
structure Tries (options : Options) (s : State σ) (seq : SeqName) (position : Nat)
    (rest : List Task) : Prop where
  agenda : s.walk.agenda = .scan seq position :: rest
  there : s.forest.contains seq = true
  lt : position < (s.forest.nodesOf seq).length
  tried : ¬(options.anchored ∧ 0 < position)

/-- A step that goes on. -/
inductive Move (p : Program) (options : Options) (receiver : Receiver σ) (s : State σ) :
    State σ → Prop
  | seen {seq rest} (agenda : s.walk.agenda = .visit seq :: rest) (there : seq ∈ s.walk.visited) :
    Move p options receiver s { s with walk.agenda := rest }
  | entered {seq rest} (agenda : s.walk.agenda = .visit seq :: rest)
    (new : seq ∉ s.walk.visited) (there : s.forest.contains seq = true) :
    Move p options receiver s { s with walk := s.walk.visit options seq rest }
  | scanned {seq position rest} (agenda : s.walk.agenda = .scan seq position :: rest)
    (there : s.forest.contains seq = true)
    (past : ¬(position < (s.forest.nodesOf seq).length ∧ ¬(options.anchored ∧ 0 < position))) :
    Move p options receiver s { s with walk.agenda := rest }
  | missed {seq position rest machine} (tries : Tries options s seq position rest)
    (none : s.walk.machine.run s.forest p seq position = .ok (none, machine)) :
    Move p options receiver s { s with
      walk := { s.walk with
        machine, attempts := s.walk.attempts + 1, agenda := .scan seq (position + 1) :: rest } }
  | received {seq position rest machine b m data after}
    (tries : Tries options s seq position rest)
    (found : s.walk.machine.run s.forest p seq position = .ok (some b, machine))
    (given : receiver (.ofCaptures s.walk.found p s.forest b, s.data) = .ok .proceed (m, data))
    (below : options.limit.any (· ≤ s.walk.found + 1) = false)
    (length : m.forest.length b.whole.seq = .ok after) :
    Move p options receiver s
      ⟨{ s.walk with
        machine, attempts := s.walk.attempts + 1, found := s.walk.found + 1
        agenda := .scan b.whole.seq (resumeAt position b.whole (m.span m.whole).toOption
          (s.forest.nodesOf seq).length after) :: rest }, m.forest, data⟩
  | nested {seq index inner rest} (agenda : s.walk.agenda = .descend seq index :: rest)
    (there : s.forest.contains seq = true)
    (child : (s.forest.nodesOf seq)[index]? = some (.seq inner)) :
    Move p options receiver s
      { s with walk.agenda := .visit inner :: .descend seq (index + 1) :: rest }
  | passed {seq index scalar rest} (agenda : s.walk.agenda = .descend seq index :: rest)
    (there : s.forest.contains seq = true)
    (child : (s.forest.nodesOf seq)[index]? = some (.scalar scalar)) :
    Move p options receiver s { s with walk.agenda := .descend seq (index + 1) :: rest }
  | ended {seq index rest} (agenda : s.walk.agenda = .descend seq index :: rest)
    (there : s.forest.contains seq = true)
    (none : (s.forest.nodesOf seq)[index]? = none) :
    Move p options receiver s { s with walk.agenda := rest }

/-- A step that ends the search. -/
inductive Halt (p : Program) (options : Options) (receiver : Receiver σ) (s : State σ) :
    Result σ → Prop
  | finished (agenda : s.walk.agenda = []) :
    Halt p options receiver s ⟨.ok (s.walk.counts false), s.forest, s.data⟩
  | missing {seq rest} (agenda : s.walk.agenda = .visit seq :: rest)
    (new : seq ∉ s.walk.visited) (missing : s.forest.contains seq = false) :
    Halt p options receiver s ⟨.error (.fault (.missingSequence seq)), s.forest, s.data⟩
  | unscanned {seq position rest e} (agenda : s.walk.agenda = .scan seq position :: rest)
    (length : s.forest.length seq = .error e) :
    Halt p options receiver s ⟨.error (.fault e), s.forest, s.data⟩
  | failed {seq position rest e} (tries : Tries options s seq position rest)
    (failed : s.walk.machine.run s.forest p seq position = .error e) :
    Halt p options receiver s ⟨.error (e.map .test), s.forest, s.data⟩
  | refused {seq position rest machine b e m data} (tries : Tries options s seq position rest)
    (found : s.walk.machine.run s.forest p seq position = .ok (some b, machine))
    (given : receiver (.ofCaptures s.walk.found p s.forest b, s.data) = .error e (m, data)) :
    Halt p options receiver s ⟨.error e, m.forest, data⟩
  | stopped {seq position rest machine b next m data} (tries : Tries options s seq position rest)
    (found : s.walk.machine.run s.forest p seq position = .ok (some b, machine))
    (given : receiver (.ofCaptures s.walk.found p s.forest b, s.data) = .ok next (m, data))
    (stop : next = .stop ∨ options.limit.any (· ≤ s.walk.found + 1) = true) :
    Halt p options receiver s
      ⟨.ok ⟨s.walk.found + 1, s.walk.sequences, s.walk.attempts + 1, machine.steps, true⟩,
        m.forest, data⟩
  | lost {seq position rest machine b m data e} (tries : Tries options s seq position rest)
    (found : s.walk.machine.run s.forest p seq position = .ok (some b, machine))
    (given : receiver (.ofCaptures s.walk.found p s.forest b, s.data) = .ok .proceed (m, data))
    (below : options.limit.any (· ≤ s.walk.found + 1) = false)
    (length : m.forest.length b.whole.seq = .error e) :
    Halt p options receiver s ⟨.error (.fault e), m.forest, data⟩
  | undescended {seq index rest e} (agenda : s.walk.agenda = .descend seq index :: rest)
    (child : s.forest.child? seq index = .error e) :
    Halt p options receiver s ⟨.error (.fault e), s.forest, s.data⟩

/-- What a step leads to: it goes on, or it ends the search. -/
def Stepped (p : Program) (options : Options) (receiver : Receiver σ) (s : State σ) :
    Progress (State σ) (Result σ) → Prop
  | .more s' => Move p options receiver s s'
  | .done r => Halt p options receiver s r

variable {p : Program} {options : Options} {receiver : Receiver σ} {s s' : State σ}
  {seq : SeqName} {position : Nat} {rest : List Task} {r : Result σ}

theorem stepped_receive {b : Captures} {machine : Machine}
    (tries : Tries options s seq position rest)
    (found : s.walk.machine.run s.forest p seq position = .ok (some b, machine)) :
    Stepped p options receiver s
      (receive p options receiver position (s.forest.nodesOf seq).length b rest
        { s with walk := { s.walk with machine, attempts := s.walk.attempts + 1 } }) := by
  unfold receive
  dsimp only
  split
  · next given => exact Halt.refused tries found given
  · next next m data given =>
    split
    · next stop => exact Halt.stopped tries found given stop
    · next go =>
      obtain ⟨hnext, below⟩ := not_or.1 go
      obtain rfl : next = .proceed := by
        cases next with
        | proceed => rfl
        | stop => exact absurd rfl hnext
      split
      · next length => exact Halt.lost tries found given (Bool.not_eq_true _ ▸ below) length
      · next length =>
        exact Move.received tries found given (Bool.not_eq_true _ ▸ below) length

theorem stepped_attempt (tries : Tries options s seq position rest) :
    Stepped p options receiver s
      (attempt p options receiver seq position (s.forest.nodesOf seq).length rest s) := by
  unfold attempt
  dsimp only
  split
  · next failed => exact Halt.failed tries failed
  · next none => exact Move.missed tries none
  · next found => exact stepped_receive tries found

theorem stepped_step (p : Program) (options : Options) (receiver : Receiver σ) (s : State σ) :
    Stepped p options receiver s (step p options receiver s) := by
  unfold step
  dsimp only
  split
  · next agenda => exact Halt.finished agenda
  · next seq rest agenda =>
    split
    · next there => exact Move.seen agenda there
    · next new =>
      split
      · next there => exact Move.entered agenda new there
      · next missing => exact Halt.missing agenda new (Bool.not_eq_true _ ▸ missing)
  · next seq position rest agenda =>
    split
    · next length => exact Halt.unscanned agenda length
    · next length hl =>
      obtain ⟨there, rfl⟩ := Forest.of_length_ok hl
      split
      · next go => exact stepped_attempt ⟨agenda, there, go.1, go.2⟩
      · next past => exact Move.scanned agenda there past
  · next seq index rest agenda =>
    split
    · next child => exact Halt.undescended agenda child
    · next child =>
      obtain ⟨there, child⟩ := Forest.of_child?_ok child
      exact Move.nested agenda there child
    · next child =>
      obtain ⟨there, child⟩ := Forest.of_child?_ok child
      exact Move.passed agenda there child
    · next child =>
      obtain ⟨there, child⟩ := Forest.of_child?_ok child
      exact Move.ended agenda there child

theorem Tries.step (tries : Tries options s seq position rest) :
    step p options receiver s =
      attempt p options receiver seq position (s.forest.nodesOf seq).length rest s := by
  simp only [Search.step, tries.agenda, Forest.length_of_contains tries.there]
  rw [if_pos ⟨tries.lt, tries.tried⟩]

theorem Tries.step_found {b : Captures} {machine : Machine}
    (tries : Tries options s seq position rest)
    (found : s.walk.machine.run s.forest p seq position = .ok (some b, machine)) :
    Search.step p options receiver s =
      receive p options receiver position (s.forest.nodesOf seq).length b rest
        { s with walk := { s.walk with machine, attempts := s.walk.attempts + 1 } } := by
  rw [tries.step]
  unfold attempt
  dsimp only
  rw [found]

/-- The ways to go on. -/
theorem step_eq_more_iff : step p options receiver s = .more s' ↔ Move p options receiver s s' := by
  constructor
  · intro h
    have := stepped_step p options receiver s
    rwa [h] at this
  · intro h
    cases h with
    | seen agenda there => simp only [step, agenda, if_pos there]
    | entered agenda new there => simp only [step, agenda, if_neg new, if_pos there]
    | scanned agenda there past =>
      simp only [step, agenda, Forest.length_of_contains there, if_neg past]
    | missed tries none =>
      rw [tries.step]
      unfold attempt
      dsimp only
      rw [none]
    | received tries found given below length =>
      rw [tries.step_found found]
      simp only [receive, given, below, length]
      rfl
    | nested agenda there child | passed agenda there child | ended agenda there child =>
      simp only [step, agenda, Forest.child?_of_contains there, child]

/-- The ways to end. -/
theorem step_eq_done_iff : step p options receiver s = .done r ↔ Halt p options receiver s r := by
  constructor
  · intro h
    have := stepped_step p options receiver s
    rwa [h] at this
  · intro h
    cases h with
    | finished agenda => simp only [step, agenda]
    | missing agenda new missing => simp [step, agenda, new, missing]
    | unscanned agenda length => simp only [step, agenda, length]
    | failed tries failed =>
      rw [tries.step]
      unfold attempt
      dsimp only
      rw [failed]
    | refused tries found given =>
      rw [tries.step_found found]
      simp only [receive, given]
    | stopped tries found given stop =>
      rw [tries.step_found found]
      simp only [receive, given, if_pos stop]
      rfl
    | lost tries found given below length =>
      rw [tries.step_found found]
      simp only [receive, given, below, length]
      rfl
    | undescended agenda child => simp only [step, agenda, child]

/-- A whole match that is still held in the sequence says where the scan goes on. -/
theorem resumeAt_held {found held : Span} {before after : Nat} (e : held.seq = found.seq) :
    resumeAt position found (some held) before after =
      if position < held.stop ∨ after < before then max held.stop position else position + 1 := by
  simp only [resumeAt, if_pos e]

/-- What holds at the start and is kept by every step decides how a search ends. -/
theorem search_ends {P : State σ → Prop} {Q : Result σ → Prop} {level : Nat} {f : Forest} {data : σ}
    (first : P (start f data)) (goes : ∀ {s s'}, P s → Move p options receiver s s' → P s')
    (ends : ∀ {s r}, P s → Halt p options receiver s r → Q r)
    (unbegun : Q ⟨.ok ⟨0, 0, 0, 0, true⟩, f, data⟩)
    (endless : ∀ {s}, P s → Q ⟨.error (.fault .endless), s.forest, s.data⟩) :
    Q (p.search options level receiver f data) := by
  unfold Program.search
  split
  · exact unbegun
  · rw [Progress.run_eq_steps]
    cases hs : Progress.steps (step p options receiver) (Nat.pow 2 level) (start f data) with
    | done r =>
      exact Progress.steps_end (fun hs h => goes hs (step_eq_more_iff.1 h))
        (fun hs h => ends hs (step_eq_done_iff.1 h)) first hs
    | more t =>
      exact endless (Progress.steps_keep (fun hs h => goes hs (step_eq_more_iff.1 h)) first hs)

/-- What holds of the data of a receiver and is kept for every match holds of them after a search
that ends well. -/
theorem data_of_search {P : σ → Prop} {level : Nat} {f : Forest} {data : σ} {counts : Counts}
    (first : P data) (keeps : ∀ {m next m' data data'}, P data →
      receiver (m, data) = .ok next (m', data') → P data')
    (h : (p.search options level receiver f data).outcome = .ok counts) :
    P (p.search options level receiver f data).data := by
  let well (r : Result σ) := ∀ counts, r.outcome = .ok counts → P r.data
  have all : well (p.search options level receiver f data) := by
    refine search_ends (P := fun s => P s.data) (Q := well) first ?_ ?_ (fun _ _ => first)
      fun _ _ hr => nomatch hr
    · intro s s' hs hm
      cases hm with
      | received tries found gave below length => exact keeps hs gave
      | seen | entered | scanned | missed | nested | passed | ended => exact hs
    · intro s r hs halt counts hr
      cases halt with
      | stopped tries found gave stop => exact keeps hs gave
      | finished => exact hs
      | missing | unscanned | failed | refused | lost | undescended => cases hr
  exact all counts h

/-- A search that finds nothing leaves the forest as it is. -/
theorem forest_of_found_zero {level : Nat} {f : Forest} {data : σ} : ∀ counts,
    (p.search options level receiver f data).outcome = .ok counts → counts.found = 0 →
    (p.search options level receiver f data).forest = f := by
  refine search_ends (P := fun s => s.walk.found = 0 → s.forest = f)
    (Q := fun r => ∀ counts, r.outcome = .ok counts → counts.found = 0 → r.forest = f)
    (fun _ => rfl) ?_ ?_ (fun _ _ _ => rfl) ?_
  · intro s s' same h
    cases h with
    | seen | entered | scanned | missed | nested | passed | ended => exact same
    | received => exact fun none => absurd none (Nat.succ_ne_zero _)
  · intro s r same h counts hr none
    cases h with
    | finished =>
      obtain rfl := Except.ok.inj hr
      exact same none
    | stopped =>
      obtain rfl := Except.ok.inj hr
      cases none
    | missing | unscanned | failed | refused | lost | undescended => cases hr
  · intro s same counts hr
    cases hr

end NestedRegex.Search
