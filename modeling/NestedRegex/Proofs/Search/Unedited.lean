import Mathlib.Data.List.ReduceOption
import NestedRegex.Proofs.Search.Order
import NestedRegex.Proofs.Search.Watched

namespace NestedRegex.Search

/-- The matches that captures stand for, numbered from a number on. -/
def matchesFrom (p : Program) (f : Forest) (number : Nat) (found : List Captures) : List Match :=
  found.mapIdx fun i b => .ofCaptures (number + i) p f b

/-- A receiver that lets the search go on and edits nothing. -/
def Watches (receiver : Receiver σ) : Prop :=
  ∀ m data, ∃ data', receiver (m, data) = .ok .proceed (m, data')

section Runs

variable {σ : Type} {p : Program} {options : Options} {receiver : Receiver σ} {f : Forest}
  {s s' : State (σ × List Match)} {items : List Pattern} {agenda rest : List Task}
  {seq : SeqName} {position : Nat} {b : Captures} {r : Result (σ × List Match)}

/-- What the scan at the head of an agenda will still answer. -/
def underWay (p : Program) (options : Options) (f : Forest) : List Task → List (Option Captures)
  | .scan seq position :: _ => scanFrom p options f seq position
  | _ => []

/-- The sequences that a search on its way will still scan. -/
def State.sequencesToCome (options : Options) (f : Forest) (s : State σ) : List SeqName :=
  upcoming options f s.walk.visited (pending f s.walk.agenda)

/-- The answers that a search on its way will still come to. -/
def State.answersToCome (p : Program) (options : Options) (f : Forest) (s : State σ) :
    List (Option Captures) :=
  underWay p options f s.walk.agenda ++
    (s.sequencesToCome options f).flatMap fun seq => scanFrom p options f seq 0

/-- What a search has counted and noted, together with what is to come. -/
structure Ledger where
  sequences : Nat
  attempts : Nat
  found : Nat
  given : List Match

def State.ledger (p : Program) (options : Options) (f : Forest) (s : State (σ × List Match)) :
    Ledger where
  sequences := s.walk.sequences + (s.sequencesToCome options f).length
  attempts := s.walk.attempts + (s.answersToCome p options f).length
  found := s.walk.found + (s.answersToCome p options f).reduceOption.length
  given := s.data.2 ++
    matchesFrom p f s.walk.found (s.answersToCome p options f).reduceOption

/-- A search on its way through a forest that stays as it is. -/
structure Looks (options : Options) (f : Forest) (s : State σ) : Prop where
  forest : s.forest = f
  there : ∀ t ∈ s.walk.agenda, f.contains t.seq = true
  scansFirst : ScansFirst s.walk.agenda
  settled : Settled options f s.walk.visited [] (pending f s.walk.agenda)

theorem underWay_of_scansFirst {t : Task} (h : ScansFirst (t :: rest)) :
    underWay p options f rest = [] := by
  unfold underWay
  split
  · next seq position rest => exact absurd List.mem_cons_self (h seq position)
  · rfl

theorem pending_entered (options : Options) (f : Forest) (seq : SeqName) (rest : List Task) :
    pending f (.scan seq 0 :: if options.descend then .descend seq 0 :: rest else rest) =
      followed options f seq ++ pending f rest := by
  unfold followed
  split <;> simp [Task.nodes]

theorem mem_met_self (hf : f.Closed) (ha : f.Acyclic) (hc : f.contains seq = true) :
    seq ∈ met options f (.seq seq) := by
  rw [met_seq hf ha hc]
  exact List.mem_cons_self

/-- A step that tries nothing and begins no scan leaves open what is still to come. -/
theorem Looks.turn {t : Task} {ts : List Task} (h : Looks options f s)
    (agenda : s.walk.agenda = t :: rest) (done : underWay p options f (t :: rest) = [])
    (there : ∀ u ∈ ts, f.contains u.seq = true) (first : ScansFirst ts)
    (none : underWay p options f ts = [])
    (settled : Settled options f s.walk.visited [] (pending f ts))
    (same : upcoming options f s.walk.visited (pending f ts) =
      upcoming options f s.walk.visited (pending f (t :: rest))) :
    Looks options f { s with walk.agenda := ts } ∧
      State.ledger p options f { s with walk.agenda := ts } = s.ledger p options f := by
  refine ⟨⟨h.forest, there, first, settled⟩, ?_⟩
  have sequences : State.sequencesToCome options f { s with walk.agenda := ts } =
      s.sequencesToCome options f := by
    unfold State.sequencesToCome
    rw [agenda]
    exact same
  have answers : State.answersToCome p options f { s with walk.agenda := ts } =
      s.answersToCome p options f := by
    unfold State.answersToCome
    rw [sequences, agenda, done, none]
  simp only [State.ledger, sequences, answers]

/-- A new sequence is counted where it was still to come, and its scan begins. -/
theorem Looks.enter (hf : f.Closed) (ha : f.Acyclic) (h : Looks options f s)
    (agenda : s.walk.agenda = .visit seq :: rest) (new : seq ∉ s.walk.visited)
    (first : ScansFirst (s.walk.visit options seq rest).agenda) :
    Looks options f { s with walk := s.walk.visit options seq rest } ∧
      State.ledger p options f { s with walk := s.walk.visit options seq rest } =
        s.ledger p options f := by
  have hthere := h.there
  have settled : Settled options f s.walk.visited [] (pending f (.visit seq :: rest)) :=
    agenda ▸ h.settled
  rw [agenda] at hthere
  have hc : f.contains seq = true := hthere _ List.mem_cons_self
  have follows := pending_entered options f seq rest
  let s' : State (σ × List Match) := { s with walk := s.walk.visit options seq rest }
  have sequences : s.sequencesToCome options f = seq :: s'.sequencesToCome options f := by
    unfold State.sequencesToCome
    rw [agenda]
    exact (upcoming_enter hf ha hc new).trans
      (congrArg (seq :: upcoming options f _ ·) follows.symm)
  have answers : s.answersToCome p options f = s'.answersToCome p options f := by
    unfold State.answersToCome
    rw [sequences, agenda]
    rfl
  refine ⟨⟨h.forest, fun u hu => ?_, first, ?_⟩, ?_⟩
  · rcases List.mem_cons.1 hu with rfl | hu
    · exact hc
    · split at hu
      · rcases List.mem_cons.1 hu with rfl | hu
        · exact hc
        · exact hthere u (List.mem_cons_of_mem _ hu)
      · exact hthere u (List.mem_cons_of_mem _ hu)
  · exact follows ▸ Settled.enter hf ha hc settled
  · simp only [State.ledger, sequences, answers, List.length_cons, s', Walk.visit]
    congr 1
    omega

theorem scanFrom_past (past : ¬(position < (f.nodesOf seq).length ∧
    ¬(options.anchored ∧ 0 < position))) : scanFrom p options f seq position = [] := by
  refine answersFrom_past fun i hi => ?_
  obtain ⟨lt, tried⟩ := mem_positions.1 hi
  by_contra hle
  exact past ⟨by omega, fun h => tried ⟨h.1, by omega⟩⟩

theorem Tries.scanFrom_eq {answer : Option Captures} (tries : Tries options s seq position rest)
    (found : p.finds s.forest seq position = answer)
    (ahead : position < following position answer) :
    scanFrom p options s.forest seq position =
      answer :: scanFrom p options s.forest seq (following position answer) := by
  obtain rfl := found
  exact answersFrom_here (sorted_positions _ _) (mem_positions.2 ⟨tries.lt, tries.tried⟩) ahead

/-- A position was tried, and its answer was counted and noted. -/
structure Answered (p : Program) (f : Forest) (s s' : State (σ × List Match)) (seq : SeqName)
    (position : Nat) (rest : List Task) (answer : Option Captures) : Prop where
  forest : s'.forest = f
  visited : s'.walk.visited = s.walk.visited
  sequences : s'.walk.sequences = s.walk.sequences
  attempts : s'.walk.attempts = s.walk.attempts + 1
  found : s'.walk.found = s.walk.found + answer.toList.length
  agenda : s'.walk.agenda = .scan seq (following position answer) :: rest
  given : s'.data.2 = s.data.2 ++ matchesFrom p f s.walk.found answer.toList

theorem matchesFrom_append (number : Nat) (bs cs : List Captures) :
    matchesFrom p f number (bs ++ cs) =
      matchesFrom p f number bs ++ matchesFrom p f (number + bs.length) cs := by
  simp [matchesFrom, List.mapIdx_append, Nat.add_assoc, Nat.add_comm bs.length]

/-- What was to come first has come. -/
theorem Looks.answered {answer : Option Captures} (h : Looks options f s)
    (tries : Tries options s seq position rest) (found : p.finds f seq position = answer)
    (ahead : position < following position answer)
    (new : Answered p f s s' seq position rest answer) :
    Looks options f s' ∧ s'.ledger p options f = s.ledger p options f := by
  have hthere := h.there
  have first := h.scansFirst
  have settled := h.settled
  obtain rfl := h.forest
  rw [tries.agenda] at hthere first settled
  have sequences : s'.sequencesToCome options s.forest = s.sequencesToCome options s.forest := by
    unfold State.sequencesToCome
    rw [new.visited, new.agenda, tries.agenda]
    rfl
  have answers : s.answersToCome p options s.forest =
      answer :: s'.answersToCome p options s.forest := by
    unfold State.answersToCome
    rw [sequences, new.agenda, tries.agenda, underWay, underWay, tries.scanFrom_eq found ahead]
    rfl
  refine ⟨⟨new.forest, fun u hu => ?_, ?_, ?_⟩, ?_⟩
  · rw [new.agenda] at hu
    rcases List.mem_cons.1 hu with rfl | hu
    · exact tries.there
    · exact hthere u (List.mem_cons_of_mem _ hu)
  · rw [new.agenda]
    exact first
  · rw [new.agenda, new.visited]
    exact settled
  · have found : (answer :: s'.answersToCome p options s.forest).reduceOption =
        answer.toList ++ (s'.answersToCome p options s.forest).reduceOption := by
      rw [← List.reduceOption_singleton, ← List.reduceOption_append, List.singleton_append]
    simp only [State.ledger, sequences, answers, found, new.sequences, new.attempts, new.found,
      new.given, matchesFrom_append, List.length_append, List.length_cons, List.append_assoc]
    congr 1 <;> omega

theorem span_whole (number : Nat) (p : Program) (f : Forest) (b : Captures) :
    ((Match.ofCaptures number p f b).span (Match.ofCaptures number p f b).whole).toOption =
      some b.whole :=
  Except.toOption_eq_some_iff.2 (Match.span_eq_ok_iff.2 ⟨rfl, rfl⟩)

/-- Where nothing was edited, a scan goes on behind the match. -/
theorem resumeAt_whole (length : Nat) (ahead : position < b.whole.stop) :
    resumeAt position b.whole (some b.whole) length length = b.whole.stop := by
  rw [resumeAt_held rfl, if_pos (.inl ahead)]
  exact Nat.max_eq_left (Nat.le_of_lt ahead)

theorem Watches.reads (watches : Watches receiver) : Reads receiver := by
  intro m data next m' data' h
  obtain ⟨after, hm⟩ := watches m data
  cases hm.symm.trans h
  exact ⟨rfl, rfl⟩

theorem Watches.accepts (watches : Watches receiver) (p : Program) (f : Forest) :
    Accepts p f receiver := by
  intro seq position b _ _ id data e m' data' h
  obtain ⟨after, hm⟩ := watches (.ofCaptures id p f b) data
  cases hm.symm.trans h

/-- Every step of a search whose receiver only reads leads on as foreseen. -/
theorem Looks.move (hp : Program.compileAll items = .ok p) (hf : f.Closed) (ha : f.Acyclic)
    (reads : Reads receiver) (h : Looks options f s)
    (hm : Move p options (recording receiver) s s') :
    Looks options f s' ∧ s'.ledger p options f = s.ledger p options f := by
  have hthere := h.there
  have settled := h.settled
  have before := h.scansFirst
  have first := h.scansFirst.move hm
  obtain rfl := h.forest
  cases hm with
  | @seen seq rest agenda there =>
    rw [agenda] at hthere before settled
    have hc := hthere _ List.mem_cons_self
    obtain ⟨all, settled⟩ := settled.seen there (mem_met_self hf ha hc)
    exact h.turn agenda rfl (fun u hu => hthere u (List.mem_cons_of_mem _ hu)) first
      (underWay_of_scansFirst before) settled (upcoming_seen all).symm
  | entered agenda new there => exact h.enter hf ha agenda new first
  | @scanned seq position rest agenda there past =>
    rw [agenda] at hthere before settled
    exact h.turn agenda (scanFrom_past past) (fun u hu => hthere u (List.mem_cons_of_mem _ hu))
      first (underWay_of_scansFirst before) settled rfl
  | @missed seq position rest machine tries nothing =>
    have found : p.finds s.forest seq position = none := by
      rw [Program.finds, match?_of_run hp hf ha tries.there nothing]
      rfl
    exact h.answered tries found (Nat.lt_succ_self _)
      ⟨rfl, rfl, rfl, rfl, rfl, rfl, (List.append_nil _).symm⟩
  | @received seq position rest machine b m data after tries hrun given below length =>
    have hmatch := match?_of_run hp hf ha tries.there hrun
    have found : p.finds s.forest seq position = some b := by
      rw [Program.finds, hmatch]
      rfl
    obtain ⟨hseq, hstart, -⟩ := Program.match_within hp hf ha tries.there hmatch
    have hpos := Program.match_nonempty hp hf ha tries.there tries.lt hmatch
    have ahead : position < b.whole.stop := by
      rw [Span.stop, hstart]
      omega
    have noted := noted_ok given
    obtain ⟨-, rfl⟩ := reads.recording _ _ _ _ _ given
    obtain ⟨-, hafter⟩ := Forest.of_length_ok length
    have resume := resumeAt_whole (s.forest.nodesOf seq).length ahead
    rw [← span_whole s.walk.found p s.forest b] at resume
    refine h.answered tries found ahead ⟨rfl, rfl, rfl, rfl, rfl, ?_, noted⟩
    rw [hafter, hseq]
    exact congrArg (fun i => Task.scan seq i :: rest) resume
  | @nested seq index inner rest agenda there child =>
    rw [agenda] at hthere settled
    have same : pending s.forest (.visit inner :: .descend seq (index + 1) :: rest) =
        pending s.forest (.descend seq index :: rest) := by
      simp only [pending_cons, Task.nodes, drop_of_getElem? child]
      rfl
    refine h.turn agenda rfl (fun u hu => ?_) first rfl (same ▸ settled) (by rw [same])
    rcases List.mem_cons.1 hu with rfl | hu
    · exact hf.child (Forest.child_of_getElem? child)
    · rcases List.mem_cons.1 hu with rfl | hu
      · exact there
      · exact hthere u (List.mem_cons_of_mem _ hu)
  | @passed seq index scalar rest agenda there child =>
    rw [agenda] at hthere settled
    have front : pending s.forest (.descend seq index :: rest) =
        .scalar scalar :: pending s.forest (.descend seq (index + 1) :: rest) := by
      simp only [pending_cons, Task.nodes, drop_of_getElem? child, List.cons_append]
    rw [front] at settled
    refine h.turn agenda rfl (fun u hu => ?_) first rfl settled.2 ?_
    · rcases List.mem_cons.1 hu with rfl | hu
      · exact there
      · exact hthere u (List.mem_cons_of_mem _ hu)
    · rw [front]
      exact (upcoming_seen (fun z hz => absurd hz List.not_mem_nil)).symm
  | @ended seq index rest agenda there none =>
    rw [agenda] at hthere before settled
    have same : pending s.forest (.descend seq index :: rest) = pending s.forest rest := by
      simp only [pending_cons, Task.nodes]
      rw [List.drop_eq_nil_of_le (List.getElem?_eq_none_iff.1 none), List.nil_append]
    exact h.turn agenda rfl (fun u hu => hthere u (List.mem_cons_of_mem _ hu)) first
      (underWay_of_scansFirst before) (same ▸ settled) (by rw [same])

/-- A search whose receiver only reads ends when nothing is left to do. -/
theorem Looks.halt (hp : Program.compileAll items = .ok p) (hf : f.Closed) (ha : f.Acyclic)
    (passes : ∀ c ∈ p.checks, ∀ n, f.Holds [n] → ∃ passed, c.2 f n = .ok passed)
    (hl : options.limit = none) (reads : Reads receiver) (accepts : Accepts p f receiver)
    (h : Looks options f s) (halt : Halt p options (recording receiver) s r) :
    s.walk.agenda = [] ∧ r = ⟨.ok (s.walk.counts false), f, s.data⟩ := by
  have here := h.there
  obtain rfl := h.forest
  obtain ⟨-, counts, outcome⟩ := Reads.halt hp hf ha here passes reads.recording
    accepts.recording halt
  cases halt with
  | finished agenda => exact ⟨agenda, rfl⟩
  | stopped tries found given stop =>
    obtain ⟨rfl, -⟩ := reads.recording _ _ _ _ _ given
    simp [hl] at stop
  | missing | unscanned | failed | refused | lost | undescended => cases outcome

theorem Looks.start (hroot : f.contains f.root = true) (options : Options)
    (data : σ × List Match) : Looks options f (start f data) := by
  refine ⟨rfl, fun t ht => ?_, fun _ _ => List.not_mem_nil, .empty _ _ _ _⟩
  obtain rfl := List.mem_singleton.1 ht
  exact hroot

theorem ledger_start (p : Program) (options : Options) (f : Forest) (data : σ) :
    State.ledger p options f (Search.start f (data, [])) =
      ⟨(order options f).length, (answers p options f).length,
        (answers p options f).reduceOption.length,
        matchesFrom p f 0 (answers p options f).reduceOption⟩ := by
  have sequences : State.sequencesToCome options f (Search.start f (data, ([] : List Match))) =
      order options f := upcoming_root options f
  have answers : State.answersToCome p options f (Search.start f (data, ([] : List Match))) =
      answers p options f := by
    unfold State.answersToCome
    rw [sequences]
    rfl
  unfold State.ledger
  rw [sequences, answers]
  simp only [Search.start, Nat.zero_add, List.nil_append]

theorem ledger_finished (agenda : s.walk.agenda = []) : s.ledger p options f =
    ⟨s.walk.sequences, s.walk.attempts, s.walk.found, s.data.2⟩ := by
  have sequences : s.sequencesToCome options f = [] := by
    unfold State.sequencesToCome
    rw [agenda]
    rfl
  have answers : s.answersToCome p options f = [] := by
    unfold State.answersToCome
    rw [sequences, agenda]
    rfl
  simp [State.ledger, sequences, answers, matchesFrom]

/-- A search whose receiver only reads and refuses nothing has counted and handed out in the end
what was foreseen when it began. -/
theorem reading_ends (hp : Program.compileAll items = .ok p) (hf : f.Closed) (ha : f.Acyclic)
    (hroot : f.contains f.root = true)
    (passes : ∀ c ∈ p.checks, ∀ n, f.Holds [n] → ∃ passed, c.2 f n = .ok passed)
    (hl : options.limit = none) (reads : Reads receiver) (accepts : Accepts p f receiver)
    {level : Nat} (enough : 3 * f.placeCount + 2 * f.size + 2 ≤ Nat.pow 2 level) (data : σ) :
    let found := (answers p options f).reduceOption
    ∃ (w : Walk) (data' : σ),
      p.search options level receiver f data = ⟨.ok (w.counts false), f, data'⟩ ∧
      p.given options level receiver f data = matchesFrom p f 0 found ∧
      w.sequences = (order options f).length ∧ w.attempts = (answers p options f).length ∧
      w.found = found.length := by
  let first : State (σ × List Match) := start f (data, [])
  let foreseen (t : State (σ × List Match)) :=
    Looks options f t ∧ t.ledger p options f = first.ledger p options f
  have goes {t t' : State (σ × List Match)} (ht : foreseen t)
      (h : step p options (recording receiver) t = .more t') : foreseen t' := by
    obtain ⟨looks, ledger⟩ := ht.1.move hp hf ha reads (step_eq_more_iff.1 h)
    exact ⟨looks, ledger.trans ht.2⟩
  obtain ⟨r, hr⟩ := Progress.steps_ends
    (fun h => (step_eq_more_iff.1 h).cost_lt reads.recording.neverGrows) first
  obtain ⟨n, t, ht, hlast⟩ := Progress.steps_done_last hr
  obtain ⟨looks, ledger⟩ := Progress.steps_keep goes ⟨.start hroot options _, rfl⟩ ht
  obtain ⟨agenda, rfl⟩ :=
    looks.halt hp hf ha passes hl reads accepts (step_eq_done_iff.1 hlast)
  rw [ledger_finished agenda, ledger_start] at ledger
  obtain ⟨sequences, attempts, found, given⟩ := Ledger.mk.inj ledger
  have noted : p.search options level (recording receiver) f (data, []) =
      ⟨.ok (t.walk.counts false), f, t.data⟩ := by
    rw [Program.search, if_neg (by simp [hl]), Progress.run_eq_steps,
      Progress.steps_done_mono hr (by rw [State.cost_start]; exact enough)]
  refine ⟨t.walk, t.data.1, ?_, ?_, sequences, attempts, found⟩
  · have plain := (search_recording p options level receiver f data).symm.trans noted
    exact congrArg (fun r => Result.mk r.outcome r.forest r.data.1) plain
  · rw [Program.given, noted]
    exact given

end Runs

end NestedRegex.Search
