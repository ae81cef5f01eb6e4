import NestedRegex.Proofs.Machine.Passes
import NestedRegex.Proofs.Search.Bounds
import NestedRegex.Proofs.Search.Given
import NestedRegex.Proofs.Search.Line

namespace NestedRegex.Search

variable {σ : Type} {p : Program} {options : Options} {receiver : Receiver σ} {f : Forest}
  {level : Nat} {data : σ} {m : Match}

section Answered

variable {t t' : State (σ × List Match)} {r : Result (σ × List Match)} {m' : Match}

/-- The receiver did not refuse a match, beside the data that it had then. -/
def Answers (receiver : Receiver σ) (m : Match) : Prop :=
  ∃ data next m' data', receiver (m, data) = .ok next (m', data')

theorem of_recording_ok {next : Next} {noted noted' : σ × List Match}
    (h : recording receiver (m, noted) = .ok next (m', noted')) :
    receiver (m, noted.1) = .ok next (m', noted'.1) := by
  unfold recording at h
  dsimp only at h
  split at h <;> cases h
  next hm => exact hm

theorem of_recording_error {e : Failure Search.Error} {noted noted' : σ × List Match}
    (h : recording receiver (m, noted) = .error e (m', noted')) :
    receiver (m, noted.1) = .error e (m', noted'.1) := by
  unfold recording at h
  dsimp only at h
  split at h <;> cases h
  next hm => exact hm

theorem answered_snoc {next : Next} {noted noted' : σ × List Match}
    (ht : ∀ n ∈ noted.2, Answers receiver n)
    (h : recording receiver (m, noted) = .ok next (m', noted')) :
    ∀ n ∈ noted'.2, Answers receiver n := by
  have last : Answers receiver m := ⟨_, _, _, _, of_recording_ok h⟩
  rw [noted_ok h]
  exact List.forall_mem_append.2 ⟨ht, List.forall_mem_singleton.2 last⟩

/-- A search that ends well was refused nothing. -/
theorem answers_of_given {counts : Counts}
    (h : (p.search options level receiver f data).outcome = .ok counts)
    (hm : m ∈ p.given options level receiver f data) : Answers receiver m := by
  let answered (noted : σ × List Match) := ∀ m ∈ noted.2, Answers receiver m
  have none : answered (data, []) := fun _ hm => nomatch hm
  have well : (p.search options level (recording receiver) f (data, [])).outcome = .ok counts := by
    rw [search_recording]
    exact h
  exact data_of_search (P := answered) none answered_snoc well m hm

theorem Halt.length_noted {counts : Counts} (ht : Numbered t.data.2 t.walk.found)
    (h : Halt p options (recording receiver) t r) (hr : r.outcome = .ok counts) :
    r.data.2.length = counts.found := by
  cases h with
  | finished agenda =>
    cases hr
    exact ht.length
  | stopped tries found gave stop =>
    cases hr
    rw [noted_ok gave]
    exact ht.snoc.length
  | missing | unscanned | failed | refused | lost | undescended => cases hr

/-- A search that ends well has counted the matches that it handed out. -/
theorem length_given {counts : Counts}
    (h : (p.search options level receiver f data).outcome = .ok counts) :
    (p.given options level receiver f data).length = counts.found := by
  let counted (t : State (σ × List Match)) := Numbered t.data.2 t.walk.found
  let well (r : Result (σ × List Match)) :=
    ∀ counts, r.outcome = .ok counts → r.data.2.length = counts.found
  have all : well (p.search options level (recording receiver) f (data, [])) := by
    refine search_ends (P := counted) (Q := well) rfl Move.numbered
      (fun ht halt _ hr => halt.length_noted ht hr) (fun counts hr => ?_) fun _ _ hr => nomatch hr
    cases hr
    rfl
  refine all counts ?_
  rw [search_recording]
  exact h

end Answered

/-- A receiver that edits nothing and lets the search go on, unless it refuses. -/
def Reads (receiver : Receiver σ) : Prop :=
  ∀ m data next m' data', receiver (m, data) = .ok next (m', data') → next = .proceed ∧ m' = m

/-- The receiver refuses none of the matches that a program finds in a forest. -/
def Accepts (p : Program) (f : Forest) (receiver : Receiver σ) : Prop :=
  ∀ {seq position b}, f.contains seq = true → p.match? f seq position = .ok (some b) →
    ∀ id, ∀ data e m' data', receiver (.ofCaptures id p f b, data) ≠ .error e (m', data')

section Watched

variable {s s' : State σ} {r : Result σ} {items : List Pattern}

theorem Reads.handles (reads : Reads receiver) (allowed : Match.Operation → Prop) :
    Handles allowed receiver := by
  intro m data next m' data' h
  obtain ⟨hnext, rfl⟩ := reads m data next m' data' h
  exact ⟨hnext, .refl⟩

theorem Reads.neverGrows (reads : Reads receiver) : NeverGrows receiver := by
  intro m data next m' data' h
  obtain ⟨-, rfl⟩ := reads m data next m' data' h
  exact ⟨Nat.le_refl _, fun _ => Nat.le_refl _⟩

theorem Reads.move (reads : Reads receiver) (h : Move p options receiver s s') :
    s'.forest = s.forest := by
  cases h with
  | received tries found given below length =>
    obtain ⟨-, rfl⟩ := reads _ _ _ _ _ given
    rfl
  | seen | entered | scanned | missed | nested | passed | ended => rfl

theorem Reads.recording (reads : Reads receiver) : Reads (recording receiver) := by
  intro m data next m' data' h
  exact reads _ _ _ _ _ (of_recording_ok h)

theorem Accepts.recording (accepts : Accepts p f receiver) : Accepts p f (recording receiver) := by
  intro seq position b hc hm id data e m' data' h
  exact accepts hc hm id _ _ _ _ (of_recording_error h)

/-- In a forest in good order nothing is missing, so that only the receiver or a check could end a
search with an error. -/
theorem Reads.halt (hp : Program.compileAll items = .ok p) (hf : s.forest.Closed)
    (ha : s.forest.Acyclic) (there : ∀ t ∈ s.walk.agenda, s.forest.contains t.seq = true)
    (passes : ∀ c ∈ p.checks, ∀ n, s.forest.Holds [n] → ∃ passed, c.2 s.forest n = .ok passed)
    (reads : Reads receiver) (accepts : Accepts p s.forest receiver)
    (halt : Halt p options receiver s r) :
    r.forest = s.forest ∧ ∃ counts, r.outcome = .ok counts := by
  have first {t : Task} {rest : List Task} (agenda : s.walk.agenda = t :: rest) :
      s.forest.contains t.seq = true := there t (agenda ▸ List.mem_cons_self)
  cases halt with
  | finished agenda => exact ⟨rfl, _, rfl⟩
  | stopped tries found given stop =>
    obtain ⟨-, rfl⟩ := reads _ _ _ _ _ given
    exact ⟨rfl, _, rfl⟩
  | missing agenda new missing => cases missing.symm.trans (first agenda)
  | unscanned agenda length => cases (Forest.length_of_contains (first agenda)).symm.trans length
  | undescended agenda child => cases (Forest.child?_of_contains (first agenda) _).symm.trans child
  | failed tries failed =>
    obtain ⟨answer, hrun⟩ := Machine.run_ok hp hf ha tries.there passes s.walk.machine _
    cases hrun.symm.trans failed
  | refused tries found given =>
    have hmatch := match?_of_run hp hf ha tries.there found
    exact absurd given (accepts tries.there hmatch _ _ _ _ _)
  | lost tries found given below length =>
    obtain ⟨-, rfl⟩ := reads _ _ _ _ _ given
    rw [← (Machine.whole_of_run found).1] at tries
    cases (Forest.length_of_contains tries.there).symm.trans length

/-- A search whose receiver reads and accepts comes to its end without an error, and the forest is
as it was. -/
theorem search_ok_of_reads (options : Options) (hp : Program.compileAll items = .ok p)
    (hf : f.Closed) (ha : f.Acyclic) (hroot : f.contains f.root = true)
    (passes : ∀ c ∈ p.checks, ∀ n, f.Holds [n] → ∃ passed, c.2 f n = .ok passed)
    (reads : Reads receiver) (accepts : Accepts p f receiver)
    (enough : 3 * f.placeCount + 2 * f.size + 2 ≤ Nat.pow 2 level) (data : σ) :
    ∃ counts data', p.search options level receiver f data = ⟨.ok counts, f, data'⟩ := by
  unfold Program.search
  split
  · exact ⟨_, _, rfl⟩
  · let line (s : State σ) := InLine s.forest s.walk.agenda ∧ s.forest = f
    have goes {s s' : State σ} (h : line s) (hs : step p options receiver s = .more s') :
        line s' := by
      have turn := turn_of_step hp h.1.closed h.1.acyclic hs
      exact ⟨h.1.turn hp (reads.handles fun _ => False) turn,
        (reads.move (step_eq_more_iff.1 hs)).trans h.2⟩
    obtain ⟨r, hr⟩ := Progress.steps_ends
      (fun h => (step_eq_more_iff.1 h).cost_lt reads.neverGrows) (start f data)
    obtain ⟨n, s, hs, hlast⟩ := Progress.steps_done_last hr
    obtain ⟨inLine, rfl⟩ := Progress.steps_keep (P := line) goes ⟨.start hf ha hroot data, rfl⟩ hs
    obtain ⟨forest, counts, outcome⟩ := Reads.halt hp inLine.closed inLine.acyclic
      (fun t ht => inLine.contains ht) passes reads accepts (step_eq_done_iff.1 hlast)
    rw [Progress.run_eq_steps, Progress.steps_done_mono hr (by rw [State.cost_start]; exact enough)]
    exact ⟨counts, r.data, by rw [← forest, ← outcome]⟩

end Watched

end NestedRegex.Search
