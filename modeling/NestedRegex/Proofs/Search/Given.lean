import NestedRegex.Proofs.Match.Handles
import NestedRegex.Proofs.Progress
import NestedRegex.Proofs.Search.Turns

namespace NestedRegex

/-- A receiver that also notes every match that it is given, as it is then. -/
def Search.recording (receiver : Receiver σ) : Receiver (σ × List Match) :=
  fun (m, data, given) =>
    match receiver (m, data) with
    | .ok next (m', data) => .ok next (m', data, given ++ [m])
    | .error e (m', data) => .error e (m', data, given ++ [m])

/-- The matches that a search hands to its receiver, in order. -/
def Program.given (p : Program) (options : Search.Options) (level : Nat) (receiver : Receiver σ)
    (f : Forest) (data : σ) : List Match :=
  (p.search options level (Search.recording receiver) f (data, [])).data.2

namespace Search

variable {σ : Type} {p : Program} {options : Options} {receiver : Receiver σ} {s s' : State σ}
  {r : Result σ} {given : List Match}

def State.noting (s : State σ) (given : List Match) : State (σ × List Match) :=
  ⟨s.walk, s.forest, s.data, given⟩

def Result.noting (r : Result σ) (given : List Match) : Result (σ × List Match) :=
  ⟨r.outcome, r.forest, r.data, given⟩

/-- A step with the matches noted so far. -/
def noting (given : List Match) :
    Progress (State σ) (Result σ) → Progress (State (σ × List Match)) (Result (σ × List Match))
  | .more s => .more (s.noting given)
  | .done r => .done (r.noting given)

theorem Tries.noting {seq : SeqName} {position : Nat} {rest : List Task}
    (h : Tries options s seq position rest) (given : List Match) :
    Tries options (s.noting given) seq position rest :=
  ⟨h.agenda, h.there, h.lt, h.tried⟩

theorem recording_ok {m m' : Match} {next : Next} {data data' : σ}
    (h : receiver (m, data) = .ok next (m', data')) (given : List Match) :
    recording receiver (m, data, given) = .ok next (m', data', given ++ [m]) := by
  simp only [recording, h]

theorem recording_error {m m' : Match} {e : Failure Search.Error} {data data' : σ}
    (h : receiver (m, data) = .error e (m', data')) (given : List Match) :
    recording receiver (m, data, given) = .error e (m', data', given ++ [m]) := by
  simp only [recording, h]

theorem Move.noting (h : Move p options receiver s s') (given : List Match) :
    ∃ given', Move p options (recording receiver) (s.noting given) (s'.noting given') := by
  cases h with
  | seen agenda there => exact ⟨given, .seen agenda there⟩
  | entered agenda new there => exact ⟨given, .entered agenda new there⟩
  | scanned agenda there past => exact ⟨given, .scanned agenda there past⟩
  | missed tries none => exact ⟨given, .missed (tries.noting given) none⟩
  | received tries found gave below length =>
    exact ⟨_, .received (tries.noting given) found (recording_ok gave given) below length⟩
  | nested agenda there child => exact ⟨given, .nested agenda there child⟩
  | passed agenda there child => exact ⟨given, .passed agenda there child⟩
  | ended agenda there none => exact ⟨given, .ended agenda there none⟩

theorem Halt.noting (h : Halt p options receiver s r) (given : List Match) :
    ∃ given', Halt p options (recording receiver) (s.noting given) (r.noting given') := by
  cases h with
  | finished agenda => exact ⟨given, .finished agenda⟩
  | missing agenda new missing => exact ⟨given, .missing agenda new missing⟩
  | unscanned agenda length => exact ⟨given, .unscanned agenda length⟩
  | failed tries failed => exact ⟨given, .failed (tries.noting given) failed⟩
  | refused tries found gave =>
    exact ⟨_, .refused (tries.noting given) found (recording_error gave given)⟩
  | stopped tries found gave stop =>
    exact ⟨_, .stopped (tries.noting given) found (recording_ok gave given) stop⟩
  | lost tries found gave below length =>
    exact ⟨_, .lost (tries.noting given) found (recording_ok gave given) below length⟩
  | undescended agenda child => exact ⟨given, .undescended agenda child⟩

theorem steps_recording (p : Program) (options : Options) (receiver : Receiver σ) (n : Nat)
    (s : State σ) (given : List Match) :
    ∃ given', Progress.steps (step p options (recording receiver)) n (s.noting given) =
      noting given' (Progress.steps (step p options receiver) n s) := by
  induction n generalizing s given with
  | zero => exact ⟨given, rfl⟩
  | succ n ih =>
    cases hs : step p options receiver s with
    | done r =>
      obtain ⟨given', halt⟩ := (step_eq_done_iff.1 hs).noting given
      refine ⟨given', ?_⟩
      rw [Progress.steps_succ_done hs, Progress.steps_succ_done (step_eq_done_iff.2 halt)]
      rfl
    | more s' =>
      obtain ⟨given', move⟩ := (step_eq_more_iff.1 hs).noting given
      rw [Progress.steps_succ_more hs, Progress.steps_succ_more (step_eq_more_iff.2 move)]
      exact ih s' given'

/-- Noting the matches changes nothing else. -/
theorem search_recording (p : Program) (options : Options) (level : Nat) (receiver : Receiver σ)
    (f : Forest) (data : σ) :
    p.search options level (recording receiver) f (data, []) =
      (p.search options level receiver f data).noting (p.given options level receiver f data) := by
  have h : ∃ given', p.search options level (recording receiver) f (data, []) =
      (p.search options level receiver f data).noting given' := by
    unfold Program.search
    split
    · exact ⟨[], rfl⟩
    · rw [Progress.run_eq_steps, Progress.run_eq_steps]
      obtain ⟨given', hs⟩ := steps_recording p options receiver (Nat.pow 2 level) (start f data) []
      have hstart : (start f data).noting [] = start f (data, []) := rfl
      refine ⟨given', ?_⟩
      rw [← hstart, hs]
      cases Progress.steps (step p options receiver) (Nat.pow 2 level) (start f data) <;> rfl
  obtain ⟨given', hs⟩ := h
  rw [Program.given, hs]
  rfl

/-- Matches that are numbered from 0. -/
def Numbered (given : List Match) (count : Nat) : Prop :=
  given.map Match.id = List.range count

theorem Numbered.snoc {m : Match} (h : Numbered given m.id) :
    Numbered (given ++ [m]) (m.id + 1) := by
  rw [Numbered, List.map_append, h, List.range_succ]
  rfl

theorem Numbered.length {count : Nat} (h : Numbered given count) : given.length = count := by
  rw [← List.length_map, h, List.length_range]

theorem Numbered.id_eq {count i : Nat} {m : Match} (h : Numbered given count)
    (hm : given[i]? = some m) : m.id = i := by
  have hi : (given.map Match.id)[i]? = some m.id := by rw [List.getElem?_map, hm]; rfl
  rw [h] at hi
  obtain ⟨hlt, hi⟩ := List.getElem?_eq_some_iff.1 hi
  rw [← hi, List.getElem_range hlt]

variable {t t' : State (σ × List Match)} {r : Result (σ × List Match)}

theorem noted_ok {m m' : Match} {next : Next} {data data' : σ × List Match}
    (h : recording receiver (m, data) = .ok next (m', data')) : data'.2 = data.2 ++ [m] := by
  unfold recording at h
  dsimp only at h
  split at h <;> cases h
  rfl

theorem noted_error {m m' : Match} {e : Failure Search.Error} {data data' : σ × List Match}
    (h : recording receiver (m, data) = .error e (m', data')) : data'.2 = data.2 ++ [m] := by
  unfold recording at h
  dsimp only at h
  split at h <;> cases h
  rfl

/-- A step that goes on hands out at most the match with the next number. -/
theorem Move.numbered (ht : Numbered t.data.2 t.walk.found)
    (h : Move p options (recording receiver) t t') : Numbered t'.data.2 t'.walk.found := by
  cases h with
  | received tries found gave below length =>
    rw [noted_ok gave]
    exact ht.snoc
  | seen | entered | scanned | missed | nested | passed | ended => exact ht

theorem Halt.numbered (ht : Numbered t.data.2 t.walk.found)
    (h : Halt p options (recording receiver) t r) : ∃ count, Numbered r.data.2 count := by
  cases h with
  | refused tries found gave => exact ⟨_, noted_error gave ▸ ht.snoc⟩
  | stopped tries found gave stop => exact ⟨_, noted_ok gave ▸ ht.snoc⟩
  | lost tries found gave below length => exact ⟨_, noted_ok gave ▸ ht.snoc⟩
  | finished | missing | unscanned | failed | undescended => exact ⟨_, ht⟩

/-- A search numbers its matches from 0. -/
theorem numbered_given (p : Program) (options : Options) (level : Nat) (receiver : Receiver σ)
    (f : Forest) (data : σ) : ∃ count, Numbered (p.given options level receiver f data) count := by
  let counted (t : State (σ × List Match)) := Numbered t.data.2 t.walk.found
  let numbered (r : Result (σ × List Match)) := ∃ count, Numbered r.data.2 count
  have first : Numbered [] 0 := rfl
  exact search_ends (P := counted) (Q := numbered) first Move.numbered Halt.numbered ⟨0, first⟩
    fun ht => ⟨_, ht⟩

theorem id_of_given {level i : Nat} {f : Forest} {data : σ} {m : Match}
    (hm : (p.given options level receiver f data)[i]? = some m) : m.id = i := by
  obtain ⟨count, h⟩ := numbered_given p options level receiver f data
  exact h.id_eq hm

variable {τ : Type} {q : Program} {wishes : Options} {watcher : Receiver τ}

/-- A match takes a handle of another match, of the same search or of another one, only if both have
the same number in their searches and it binds a name with that index. Within one search the numbers
of two matches differ, so that every match rejects the handles of all others, at any time. -/
theorem other_handles_rejected_iff {level depth i j : Nat} {f g : Forest} {data : σ} {memory : τ}
    {m m' n n' : Match} {h : Handle}
    (hm : (p.given options level receiver f data)[i]? = some m)
    (hn : (q.given wishes depth watcher g memory)[j]? = some n)
    (becomes : m.Becomes m') (becomes' : n.Becomes n') (offered : m'.Offers h) :
    n'.Rejects h ↔ i ≠ j ∨ ¬n.BindsAt h.index := by
  have hi : h.matchId = i := by rw [offered.matchId, becomes.later.id, id_of_given hm]
  have hj : n'.id = j := by rw [becomes'.later.id, id_of_given hn]
  rw [Match.rejects_iff, hi, hj, becomes'.later.binds]

/-- The second match of a search rejects the capture of the first. -/
theorem other_handles_rejected_next :
    let p := Program.ofItems [.named "x" [.any]]
    let v : Value := .seq [.scalar (.int 1), .scalar (.int 2)]
    let given := p.given {} 5 (making fun _ => [] : Receiver Unit) (.ofValue v) ()
    ∃ m n, given[0]? = some m ∧ given[1]? = some n ∧ m.Offers ⟨0, 1⟩ ∧ n.BindsAt 1 ∧
      n.Rejects ⟨0, 1⟩ := by
  intro p v given
  have hlength : given.length = 2 := by decide +kernel
  have hm : given[0]? = some (given[0]) := List.getElem?_eq_getElem _
  have hn : given[1]? = some (given[1]) := List.getElem?_eq_getElem _
  have offered : (given[0]).Offers ⟨0, 1⟩ := .inr ⟨"x", by decide +kernel⟩
  have binds : (given[1]).BindsAt 1 := by decide +kernel
  exact ⟨_, _, hm, hn, offered, binds,
    (other_handles_rejected_iff hm hn .refl .refl offered).2 (.inl Nat.zero_ne_one)⟩

/-- The first match of a search takes the capture of the first match of the search before it for a
capture of its own. -/
theorem handle_of_other_search_accepted :
    let p := Program.ofItems [.named "x" [.any]]
    let q := Program.ofItems [.any, .named "y" [.any]]
    let v : Value := .seq [.scalar (.int 1), .scalar (.int 2)]
    let first := p.search {} 5 (making fun _ => [] : Receiver Unit) (.ofValue v) ()
    ∃ m n, (p.given {} 5 (making fun _ => [] : Receiver Unit) (.ofValue v) ())[0]? = some m ∧
      (q.given {} 5 (making fun _ => [] : Receiver Unit) first.forest ())[0]? = some n ∧
      m.get? "x" = some ⟨0, 1⟩ ∧ m.get? "y" = none ∧ n.get? "y" = some ⟨0, 1⟩ ∧
      n.isValid ⟨0, 1⟩ = true ∧ n.span ⟨0, 1⟩ = .ok ⟨first.forest.root, 1, 1⟩ ∧
      ¬n.Rejects ⟨0, 1⟩ := by
  intro p q v first
  let given := p.given {} 5 (making fun _ => [] : Receiver Unit) (.ofValue v) ()
  let later := q.given {} 5 (making fun _ => [] : Receiver Unit) first.forest ()
  have hgiven : given.length = 2 := by decide +kernel +revert
  have hlater : later.length = 1 := by decide +kernel +revert
  have span : (later[0]).span ⟨0, 1⟩ = .ok ⟨first.forest.root, 1, 1⟩ :=
    Except.toOption_eq_some_iff.1 (by decide +kernel +revert)
  refine ⟨given[0], later[0], List.getElem?_eq_getElem _, List.getElem?_eq_getElem _,
    by decide +kernel +revert, by decide +kernel +revert, by decide +kernel, by decide +kernel,
    span, fun rejects => ?_⟩
  rw [rejects.span] at span
  cases span

end Search

end NestedRegex
