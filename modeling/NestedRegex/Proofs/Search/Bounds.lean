import NestedRegex.Proofs.Machine.Whole
import NestedRegex.Proofs.Search.Visits

namespace NestedRegex

/-- A forest that has no new sequences and none that is longer. -/
structure Forest.NoLarger (g f : Forest) : Prop where
  size : g.size ≤ f.size
  length (id : SeqName) : (g.nodesOf id).length ≤ (f.nodesOf id).length

namespace Search

/-- A receiver that adds no sequence and leaves none longer than it was. -/
def NeverGrows (receiver : Receiver σ) : Prop :=
  ∀ m data next m' data', receiver (m, data) = .ok next (m', data') → m'.forest.NoLarger m.forest

/-- The position that is tried next, if the next thing to do is to try one. -/
def tried (options : Options) (s : State σ) : Option (SeqName × Nat) :=
  match s.walk.agenda with
  | .scan seq position :: _ =>
    if position < (s.forest.nodesOf seq).length ∧ ¬(options.anchored ∧ 0 < position) then
      some (seq, position)
    else none
  | _ => none

/-- The positions that are tried in some steps, or in fewer if the search is done before. -/
def tries (p : Program) (options : Options) (receiver : Receiver σ) :
    Nat → State σ → List (SeqName × Nat)
  | 0, _ => []
  | n + 1, s =>
    (tried options s).toList ++
      match step p options receiver s with
      | .more s' => tries p options receiver n s'
      | .done _ => []

/-- An attempt or a receiver without end: the search tries a position where the machine has none, or
hands out a match that the receiver does not come back from. -/
def Stuck (p : Program) (options : Options) (receiver : Receiver σ) (s : State σ) : Prop :=
  ∃ seq position rest, Tries options s seq position rest ∧
    (s.walk.machine.run s.forest p seq position = .error (.fault .endless) ∨
      ∃ b machine m', s.walk.machine.run s.forest p seq position = .ok (some b, machine) ∧
        receiver (.ofCaptures s.walk.found p s.forest b, s.data) = .error (.fault .endless) m')

/-- The positions that a task can still try. -/
def Task.room (f : Forest) : Task → Nat
  | .scan seq position => (f.nodesOf seq).length - position
  | _ => 0

/-- The steps that a task can still take, apart from visits of new sequences. -/
def Task.cost (f : Forest) : Task → Nat
  | .visit _ => 1
  | .scan seq position => (f.nodesOf seq).length - position + 1
  | .descend seq index => 2 * ((f.nodesOf seq).length - index) + 1

/-- The positions that a search can still try. -/
def State.room (s : State σ) : Nat :=
  s.forest.unseen s.walk.visited + (s.walk.agenda.map (Task.room s.forest)).sum

/-- What the first visit of a sequence makes possible. -/
def visitCost (f : Forest) (id : SeqName) : Nat :=
  3 * (f.nodesOf id).length + 2

/-- The steps that a search can still take. -/
def State.cost (s : State σ) : Nat :=
  s.forest.outside (visitCost s.forest) s.walk.visited +
    (s.walk.agenda.map (Task.cost s.forest)).sum

variable {σ : Type} {p : Program} {options : Options} {receiver : Receiver σ} {s s' : State σ}
  {f g : Forest} {agenda rest : List Task} {n : Nat} {r : Result σ} {seq : SeqName}
  {position : Nat}

theorem Task.room_le (h : g.NoLarger f) (t : Task) : t.room g ≤ t.room f := by
  cases t with
  | scan seq position => exact Nat.sub_le_sub_right (h.length seq) position
  | visit | descend => exact Nat.le_refl 0

theorem Task.cost_le (h : g.NoLarger f) (t : Task) : t.cost g ≤ t.cost f := by
  cases t with
  | visit => exact Nat.le_refl 1
  | scan seq position | descend seq position =>
    have := h.length seq
    simp only [Task.cost]
    omega

/-- A scan gets on after a match: with what is behind it, or with a loss of nodes. -/
theorem lt_of_resumeAt {before after : Nat} {found : Span} {held : Option Span}
    (lt : position < before) (le : after ≤ before) :
    after - resumeAt position found held before after < before - position := by
  unfold resumeAt
  extract_lets resume
  by_cases h : position < resume ∨ after < before
  · rw [if_pos h]
    omega
  · rw [if_neg h]
    omega

theorem tried_of_tries (h : Tries options s seq position rest) :
    tried options s = some (seq, position) := by
  unfold tried
  rw [h.agenda]
  exact if_pos ⟨h.lt, h.tried⟩

theorem tried_of_agenda {t : Task} (agenda : s.walk.agenda = t :: rest)
    (ht : ∀ seq position, t ≠ .scan seq position) : tried options s = none := by
  unfold tried
  rw [agenda]
  split
  · next e => exact absurd (List.cons.inj e).1 (ht _ _)
  · rfl

theorem tried_of_past (agenda : s.walk.agenda = .scan seq position :: rest)
    (past : ¬(position < (s.forest.nodesOf seq).length ∧ ¬(options.anchored ∧ 0 < position))) :
    tried options s = none := by
  unfold tried
  rw [agenda]
  exact if_neg past

/-- With the forest after a match the rest of the agenda costs no more, and less is unseen. -/
theorem outside_visitCost_le (h : g.NoLarger f) (seen : NameSet) :
    g.outside (visitCost g) seen ≤ f.outside (visitCost f) seen :=
  Forest.outside_le_outside h.size (fun id => by have := h.length id; unfold visitCost; omega) seen

theorem unseen_le (h : g.NoLarger f) (seen : NameSet) : g.unseen seen ≤ f.unseen seen :=
  Forest.outside_le_outside h.size h.length seen

/-- A match lies in the sequence that is scanned, and so the scan of it goes on. -/
theorem Tries.resume_lt {b : Captures} {machine : Machine} {m : Match} {data : σ} {next : Next}
    {after : Nat} (tries : Tries options s seq position rest) (grows : NeverGrows receiver)
    (found : s.walk.machine.run s.forest p seq position = .ok (some b, machine))
    (given : receiver (.ofCaptures s.walk.found p s.forest b, s.data) = .ok next (m, data))
    (length : m.forest.length b.whole.seq = .ok after) (held : Option Span) :
    m.forest.NoLarger s.forest ∧ after = (m.forest.nodesOf b.whole.seq).length ∧
      after - resumeAt position b.whole held (s.forest.nodesOf seq).length after <
        (s.forest.nodesOf seq).length - position := by
  obtain ⟨-, hafter⟩ := Forest.of_length_ok length
  have smaller := grows _ _ _ _ _ given
  obtain ⟨hseq, -⟩ := Machine.whole_of_run found
  refine ⟨smaller, hafter, lt_of_resumeAt tries.lt ?_⟩
  rw [hafter, hseq]
  exact smaller.length seq

/-- Every step makes the search cheaper. -/
theorem Move.cost_lt (grows : NeverGrows receiver) (h : Move p options receiver s s') :
    s'.cost < s.cost := by
  cases h with
  | seen agenda there =>
    simp only [State.cost, agenda, List.map_cons, List.sum_cons, Task.cost]
    omega
  | @entered seq rest agenda new there =>
    have hvisit := Forest.outside_insert (visitCost s.forest) there new
    simp only [State.cost, Walk.visit, agenda, List.map_cons, List.sum_cons, Task.cost, visitCost]
      at hvisit ⊢
    split
    · simp only [List.map_cons, List.sum_cons, Task.cost]
      omega
    · omega
  | scanned agenda there past =>
    simp only [State.cost, agenda, List.map_cons, List.sum_cons, Task.cost]
    omega
  | missed tries none =>
    have := tries.lt
    simp only [State.cost, tries.agenda, List.map_cons, List.sum_cons, Task.cost]
    omega
  | @received seq position rest machine b m data after tries found given below length =>
    obtain ⟨smaller, hafter, hresume⟩ :=
      tries.resume_lt grows found given length (m.span m.whole).toOption
    have hrest := List.sum_le_sum fun t (_ : t ∈ rest) => t.cost_le smaller
    have hvisits := outside_visitCost_le smaller s.walk.visited
    simp only [State.cost, tries.agenda, List.map_cons, List.sum_cons, Task.cost]
    rw [← hafter]
    omega
  | nested agenda there child | passed agenda there child =>
    have := (List.getElem?_eq_some_iff.1 child).1
    simp only [State.cost, agenda, List.map_cons, List.sum_cons, Task.cost]
    omega
  | ended agenda there none =>
    simp only [State.cost, agenda, List.map_cons, List.sum_cons, Task.cost]
    omega

/-- Every position that is tried is one less to try. -/
theorem Move.room_le (grows : NeverGrows receiver) (h : Move p options receiver s s') :
    (tried options s).toList.length + s'.room ≤ s.room := by
  cases h with
  | seen agenda there =>
    rw [tried_of_agenda agenda (by simp)]
    simp only [State.room, agenda, List.map_cons, List.sum_cons, Task.room]
    simp
  | @entered seq rest agenda new there =>
    have hvisit := Forest.unseen_insert there new
    rw [tried_of_agenda agenda (by simp)]
    simp only [State.room, Walk.visit, agenda, List.map_cons, List.sum_cons, Task.room]
    split <;>
    · simp only [List.map_cons, List.sum_cons, Task.room, Option.toList_none, List.length_nil]
      omega
  | scanned agenda there past =>
    rw [tried_of_past agenda past]
    simp only [State.room, agenda, List.map_cons, List.sum_cons, Task.room, Option.toList_none,
      List.length_nil]
    omega
  | missed tries none =>
    have := tries.lt
    rw [tried_of_tries tries]
    simp only [State.room, tries.agenda, List.map_cons, List.sum_cons, Task.room,
      Option.toList_some, List.length_singleton]
    omega
  | @received seq position rest machine b m data after tries found given below length =>
    obtain ⟨smaller, hafter, hresume⟩ :=
      tries.resume_lt grows found given length (m.span m.whole).toOption
    have hrest := List.sum_le_sum fun t (_ : t ∈ rest) => t.room_le smaller
    have hunseen := unseen_le smaller s.walk.visited
    rw [tried_of_tries tries]
    simp only [State.room, tries.agenda, List.map_cons, List.sum_cons, Task.room,
      Option.toList_some, List.length_singleton]
    rw [← hafter]
    omega
  | nested agenda there child | passed agenda there child | ended agenda there child =>
    rw [tried_of_agenda agenda (by simp)]
    simp only [State.room, agenda, List.map_cons, List.sum_cons, Task.room]
    simp

theorem tried_le_room (options : Options) (s : State σ) :
    (tried options s).toList.length ≤ s.room := by
  unfold tried
  split
  · next agenda =>
    split
    · next go =>
      simp only [State.room, agenda, List.map_cons, List.sum_cons, Task.room, Option.toList_some,
        List.length_singleton]
      omega
    · exact Nat.zero_le _
  · exact Nat.zero_le _

theorem tries_succ (h : step p options receiver s = .more s') :
    tries p options receiver (n + 1) s =
      (tried options s).toList ++ tries p options receiver n s' := by
  rw [tries, h]

theorem tries_succ_done (h : step p options receiver s = .done r) :
    tries p options receiver (n + 1) s = (tried options s).toList := by
  rw [tries, h, List.append_nil]

/-- No more positions are tried than there is room for. -/
theorem length_tries_le (p : Program) (options : Options) (grows : NeverGrows receiver) (n : Nat)
    (s : State σ) :
    (tries p options receiver n s).length ≤ s.room := by
  induction n generalizing s with
  | zero => exact Nat.zero_le _
  | succ n ih =>
    cases hstep : step p options receiver s with
    | done r =>
      rw [tries_succ_done hstep]
      exact tried_le_room options s
    | more s' =>
      rw [tries_succ hstep, List.length_append]
      have := (step_eq_more_iff.1 hstep).room_le grows
      have := ih s'
      omega

/-- An attempt is counted. -/
theorem Move.attempts (h : Move p options receiver s s') :
    s'.walk.attempts = s.walk.attempts + (tried options s).toList.length := by
  cases h with
  | seen agenda _ | entered agenda _ _ | nested agenda _ _ | passed agenda _ _ | ended agenda _ _ =>
    rw [tried_of_agenda agenda (by simp)]
    rfl
  | scanned agenda _ past =>
    rw [tried_of_past agenda past]
    rfl
  | missed tries _ | received tries _ _ _ _ =>
    rw [tried_of_tries tries]
    rfl

theorem Halt.attempts {counts : Counts} (h : Halt p options receiver s r)
    (hr : r.outcome = .ok counts) :
    counts.attempts = s.walk.attempts + (tried options s).toList.length := by
  cases h with
  | finished agenda =>
    obtain rfl := Except.ok.inj hr
    simp [tried, agenda, Walk.counts]
  | stopped tries _ _ _ =>
    obtain rfl := Except.ok.inj hr
    rw [tried_of_tries tries]
    rfl
  | missing | unscanned | failed | refused | lost | undescended => cases hr

/-- The attempts of a search that ends well are the positions that it tried. -/
theorem attempts_of_steps {counts : Counts}
    (hs : Progress.steps (step p options receiver) n s = .done r) (hr : r.outcome = .ok counts) :
    counts.attempts = s.walk.attempts + (tries p options receiver n s).length := by
  induction n generalizing s with
  | zero => cases hs
  | succ n ih =>
    cases hstep : step p options receiver s with
    | done r' =>
      rw [Progress.steps_succ_done hstep] at hs
      obtain rfl := Progress.done.inj hs
      rw [tries_succ_done hstep]
      exact (step_eq_done_iff.1 hstep).attempts hr
    | more s' =>
      rw [Progress.steps_succ_more hstep] at hs
      rw [ih hs, (step_eq_more_iff.1 hstep).attempts, tries_succ hstep, List.length_append,
        Nat.add_assoc]

/-- Only an attempt or a receiver without end leaves the search without end. -/
theorem Halt.stuck (h : Halt p options receiver s r) (hr : r.outcome = .error (.fault .endless)) :
    Stuck p options receiver s := by
  cases h with
  | finished | missing | stopped => cases hr
  | unscanned agenda length =>
    rw [Forest.of_length_error length] at hr
    cases hr
  | @failed seq position rest e tries failed =>
    cases e with
    | error e => cases hr
    | fault e =>
      obtain rfl := Failure.fault.inj (Except.error.inj hr)
      exact ⟨seq, position, rest, tries, .inl failed⟩
  | refused tries found given =>
    obtain rfl := Except.error.inj hr
    exact ⟨_, _, _, tries, .inr ⟨_, _, _, found, given⟩⟩
  | lost tries found given below length =>
    rw [Forest.of_length_error length] at hr
    cases hr
  | undescended agenda child =>
    rw [Forest.of_child?_error child] at hr
    cases hr

theorem State.cost_start (f : Forest) (data : σ) :
    (start f data).cost = 3 * f.placeCount + 2 * f.size + 1 := by
  have hvisits : f.outside (visitCost f) .empty = 3 * f.placeCount + f.size * 2 := by
    rw [← Forest.unseen_empty]
    simp only [Forest.outside, Forest.unseen, NameSet.not_mem_empty, if_false, visitCost,
      Finset.sum_add_distrib, Finset.sum_const, Finset.card_range]
    exact congrArg₂ (· + ·) (Finset.sum_nsmul _ 3 _) rfl
  simp only [State.cost, start, hvisits, List.map_cons, List.map_nil, List.sum_cons, List.sum_nil,
    Task.cost, Nat.add_zero]
  omega

theorem State.room_start (f : Forest) (data : σ) : (start f data).room = f.placeCount := by
  simp only [State.room, start, Forest.unseen_empty, List.map_cons, List.map_nil, List.sum_cons,
    List.sum_nil, Task.room, Nat.add_zero]

/-- A search ends, whatever a receiver does that adds no sequence and makes none longer: one result
is that of every search that may take so many steps. It is only an attempt or a receiver without end
that this result can tell of. No sequence is scanned twice, and no more positions are tried than the
forest had child places. -/
theorem search_bounded (grows : NeverGrows receiver) (p : Program) (options : Options) (f : Forest)
    (data : σ) : ∃ r : Result σ,
      (∀ level, 3 * f.placeCount + 2 * f.size + 2 ≤ Nat.pow 2 level →
        p.search options level receiver f data = r) ∧
      ((∀ n s, Progress.steps (step p options receiver) n (start f data) = .more s →
        ¬Stuck p options receiver s) → r.outcome ≠ .error (.fault .endless)) ∧
      (∀ counts, r.outcome = .ok counts → counts.attempts ≤ f.placeCount) ∧
      ∀ n, (scans p options receiver n (start f data)).Nodup ∧
        (tries p options receiver n (start f data)).length ≤ f.placeCount := by
  have bounds (n : Nat) : (scans p options receiver n (start f data)).Nodup ∧
      (tries p options receiver n (start f data)).length ≤ f.placeCount := by
    have first : ScansFirst (start f data).walk.agenda := fun _ _ => List.not_mem_nil
    have room := length_tries_le p options grows n (start f data)
    rw [State.room_start] at room
    exact ⟨nodup_scans first n, room⟩
  by_cases hl : options.limit = some 0
  · refine ⟨⟨.ok ⟨0, 0, 0, 0, true⟩, f, data⟩, fun level _ => ?_, fun _ => nofun,
      fun counts hc => ?_, bounds⟩
    · rw [Program.search, if_pos hl]
    · rw [← Except.ok.inj hc]
      exact Nat.zero_le _
  · obtain ⟨r, hr⟩ := Progress.steps_ends
      (fun h => (step_eq_more_iff.1 h).cost_lt grows) (start f data)
    refine ⟨r, fun level hlevel => ?_, fun ends endless => ?_, fun counts hc => ?_, bounds⟩
    · rw [Program.search, if_neg hl, Progress.run_eq_steps,
        Progress.steps_done_mono hr (by rw [State.cost_start]; exact hlevel)]
    · obtain ⟨n, s, hs, hlast⟩ := Progress.steps_done_last hr
      exact ends n s hs ((step_eq_done_iff.1 hlast).stuck endless)
    · rw [attempts_of_steps hr hc]
      exact (Nat.zero_add _).symm ▸ (bounds _).2

/-- A receiver that puts the root in the place of every child. -/
def rooting : Receiver σ := fun (m, data) =>
  let rows := m.forest.rows.map (·.map fun _ => Node.seq m.forest.root)
  .ok .proceed ({ m with forest := { m.forest with rows } }, data)

theorem neverGrows_rooting : NeverGrows (rooting : Receiver σ) := by
  intro m data next m' data' h
  cases h
  refine ⟨Nat.le_of_eq (by simp [Forest.size]), fun id => Nat.le_of_eq ?_⟩
  simp only [Forest.nodesOf, Forest.children?, Forest.row?, Array.getElem?_map]
  cases m.forest.rows[id.index]? <;> simp

/-- Two sequences that lead to one another, and after the first match only to the root. -/
theorem search_bounded_rooted :
    let f : Forest := ⟨#[#[.scalar .null, .seq ⟨1⟩], #[.seq ⟨0⟩]], ⟨0⟩⟩
    let p := Program.ofItems [.named "x" [.any]]
    NeverGrows (rooting : Receiver Unit) ∧
      (∀ level, 4 ≤ level →
        (p.search {} level rooting f ()).outcome = .ok ⟨2, 1, 2, 8, false⟩) ∧
      (scans p {} (rooting : Receiver Unit) 16 (start f ())).Nodup ∧
      (tries p {} (rooting : Receiver Unit) 16 (start f ())).length ≤ 3 := by
  intro f p
  have grows : NeverGrows (rooting : Receiver Unit) := neverGrows_rooting
  obtain ⟨r, search, -, -, bounds⟩ := search_bounded grows p {} f ()
  have outcome : (p.search {} 4 rooting f ()).outcome = .ok ⟨2, 1, 2, 8, false⟩ :=
    Except.toOption_eq_some_iff.1 (by decide +kernel)
  refine ⟨grows, fun level hlevel => ?_, bounds 16⟩
  have enough : 15 ≤ Nat.pow 2 level :=
    Nat.le_trans (by decide : 15 ≤ 2 ^ 4) (Nat.pow_le_pow_right (by decide) hlevel)
  rw [search level enough, ← search 4 (by decide), outcome]

end Search

end NestedRegex
