import NestedRegex.Proofs.Search.Frontier

namespace NestedRegex.Search

open Relation

/-- The sequence whose scan a step begins, if it goes on from a visit to a scan. -/
def begun (s s' : State σ) : Option SeqName :=
  match s.walk.agenda, s'.walk.agenda with
  | .visit _ :: _, .scan seq _ :: _ => some seq
  | _, _ => none

/-- The sequences whose scans begin in some steps, or in fewer if the search is done before. -/
def scans (p : Program) (options : Options) (receiver : Receiver σ) : Nat → State σ → List SeqName
  | 0, _ => []
  | n + 1, s =>
    match step p options receiver s with
    | .more s' => (begun s s').toList ++ scans p options receiver n s'
    | .done _ => []

variable {σ : Type} {p : Program} {options : Options} {receiver : Receiver σ} {s s' : State σ}
  {items : List Pattern} {f : Forest} {rest : List Task} {seq x : SeqName} {position n : Nat}
  {b : Captures} {m : Match} {data : σ} {counts : Counts}

theorem begun_of_agenda {t : Task} (agenda : s.walk.agenda = t :: rest)
    (ht : ∀ seq, t ≠ .visit seq) : begun s s' = none := by
  unfold begun
  rw [agenda]
  split
  · next e _ => exact absurd (List.cons.inj e).1 (ht _)
  · rfl

theorem scans_succ (h : step p options receiver s = .more s') :
    scans p options receiver (n + 1) s = (begun s s').toList ++ scans p options receiver n s' := by
  rw [scans, h]

/-- The step that ends a search begins no scan. -/
theorem scans_done {r : Result σ} (hs : Progress.steps (step p options receiver) n s = .done r) :
    ∃ m t, Progress.steps (step p options receiver) m s = .more t ∧
      step p options receiver t = .done r ∧
      scans p options receiver n s = scans p options receiver m s := by
  induction n generalizing s with
  | zero => cases hs
  | succ n ih =>
    cases hstep : step p options receiver s with
    | done r' =>
      rw [Progress.steps_succ_done hstep] at hs
      refine ⟨0, s, rfl, hstep.trans hs, ?_⟩
      simp only [scans, hstep]
    | more s' =>
      rw [Progress.steps_succ_more hstep] at hs
      obtain ⟨m, t, ht, hdone, hscans⟩ := ih hs
      refine ⟨m + 1, t, (Progress.steps_succ_more hstep).trans ht, hdone, ?_⟩
      rw [scans_succ hstep, scans_succ hstep, hscans]

/-- A scan stands only at the head of an agenda. -/
def ScansFirst (agenda : List Task) : Prop :=
  ∀ seq position, .scan seq position ∉ agenda.tail

theorem Descends.not_mem_scan {visited : NameSet} (h : Descends visited rest) :
    .scan seq position ∉ rest := by
  induction h with
  | nil => exact List.not_mem_nil
  | cons _ _ _ ih => simpa using ih

theorem Ordered.scansFirst {visited : NameSet} {agenda : List Task} (h : Ordered visited agenda) :
    ScansFirst agenda := by
  intro seq position hin
  cases h with
  | between h => exact h.not_mem_scan (List.mem_of_mem_tail hin)
  | visit h | scan h => exact h.not_mem_scan hin

theorem ScansFirst.move (h : ScansFirst s.walk.agenda) (hm : Move p options receiver s s') :
    ScansFirst s'.walk.agenda := by
  intro x i hin
  cases hm with
  | seen agenda _ | scanned agenda _ _ | ended agenda _ _ =>
    rw [agenda] at h
    exact h x i (List.mem_of_mem_tail hin)
  | missed tries _ | received tries _ _ _ _ =>
    have h := tries.agenda ▸ h
    exact h x i hin
  | entered agenda _ _ =>
    rw [agenda] at h
    simp only [Walk.visit, List.tail_cons] at hin
    split at hin
    · exact h x i (by simpa using hin)
    · exact h x i hin
  | nested agenda _ _ | passed agenda _ _ =>
    rw [agenda] at h
    exact h x i (by simpa using hin)

/-- A step begins at most one scan, of a sequence that was not visited before. -/
theorem begun_of_move (h : ScansFirst s.walk.agenda) (hm : Move p options receiver s s') :
    (∀ x, x ∈ s'.walk.visited ↔ x ∈ (begun s s').toList ∨ x ∈ s.walk.visited) ∧
      (∀ x ∈ (begun s s').toList, x ∉ s.walk.visited) ∧
      s'.walk.sequences = s.walk.sequences + (begun s s').toList.length := by
  cases hm with
  | @seen seq rest agenda there =>
    have none : begun s { s with walk.agenda := rest } = none := by
      unfold begun
      dsimp only
      split
      · rw [agenda] at h
        exact absurd List.mem_cons_self (h _ _)
      · rfl
    rw [none]
    simp
  | entered agenda new there => simp [begun, agenda, Walk.visit, new]
  | scanned agenda _ _ | nested agenda _ _ | passed agenda _ _ | ended agenda _ _ =>
    rw [begun_of_agenda agenda (by simp)]
    simp
  | missed tries _ | received tries _ _ _ _ =>
    rw [begun_of_agenda tries.agenda (by simp)]
    simp

/-- As long as a search goes on, it scans sequences that it did not visit before, and visits just
those. -/
theorem scans_of_steps {t : State σ} (h : ScansFirst s.walk.agenda)
    (hs : Progress.steps (step p options receiver) n s = .more t) :
    (scans p options receiver n s).Nodup ∧
      (∀ x, x ∈ t.walk.visited ↔ x ∈ s.walk.visited ∨ x ∈ scans p options receiver n s) ∧
      t.walk.sequences = s.walk.sequences + (scans p options receiver n s).length := by
  suffices all : (scans p options receiver n s).Nodup ∧
      (∀ x ∈ scans p options receiver n s, x ∉ s.walk.visited) ∧
      (∀ x, x ∈ t.walk.visited ↔ x ∈ s.walk.visited ∨ x ∈ scans p options receiver n s) ∧
      t.walk.sequences = s.walk.sequences + (scans p options receiver n s).length from
    ⟨all.1, all.2.2⟩
  induction n generalizing s with
  | zero =>
    obtain rfl := Progress.more.inj hs
    exact ⟨List.nodup_nil, fun x hx => absurd hx List.not_mem_nil, fun x => by simp [scans], rfl⟩
  | succ n ih =>
    cases hstep : step p options receiver s with
    | done r =>
      rw [Progress.steps_succ_done hstep] at hs
      cases hs
    | more s' =>
      rw [Progress.steps_succ_more hstep] at hs
      have hm := step_eq_more_iff.1 hstep
      obtain ⟨nodup, new, visited, count⟩ := ih (h.move hm) hs
      obtain ⟨hvisited, hnew, hcount⟩ := begun_of_move h hm
      rw [scans_succ hstep]
      refine ⟨List.nodup_append.2 ⟨?_, nodup, ?_⟩, fun x hx => ?_, fun x => ?_, ?_⟩
      · cases begun s s' <;> simp
      · rintro x hx y hy rfl
        exact new x hy ((hvisited x).2 (.inl hx))
      · rcases List.mem_append.1 hx with hx | hx
        · exact hnew x hx
        · exact fun hv => new x hx ((hvisited x).2 (.inr hv))
      · rw [visited, hvisited, List.mem_append, or_comm (b := x ∈ s.walk.visited), or_assoc]
      · rw [count, hcount, List.length_append, Nat.add_assoc]

/-- No sequence is scanned twice. -/
theorem nodup_scans (h : ScansFirst s.walk.agenda) (n : Nat) :
    (scans p options receiver n s).Nodup := by
  cases hs : Progress.steps (step p options receiver) n s with
  | more t => exact (scans_of_steps h hs).1
  | done r =>
    obtain ⟨m, t, ht, -, hscans⟩ := scans_done hs
    rw [hscans]
    exact (scans_of_steps h ht).1

theorem drop_of_getElem? {xs : List α} {i : Nat} {a : α} (h : xs[i]? = some a) :
    xs.drop i = a :: xs.drop (i + 1) := by
  obtain ⟨hi, rfl⟩ := List.getElem?_eq_some_iff.1 h
  exact List.drop_eq_getElem_cons hi

/-- At first only the root is met. -/
theorem Frontier.start (hf : f.Closed) (ha : f.Acyclic) (hu : f.Unshared)
    (hroot : f.contains f.root = true) : Frontier f .empty [.visit f.root] := by
  have hmem : ∀ {x}, .seq x ∈ pending f [.visit f.root] ↔ x = f.root := by
    simp [pending, Task.nodes]
  have hmet : ∀ {x}, Met f .empty [.visit f.root] x → x = f.root := by
    rintro x (hx | hx)
    · exact absurd hx (NameSet.not_mem_empty x)
    · exact hmem.1 hx
  refine ⟨hf, ha, hu, hroot, .visit .nil, .inr (hmem.2 rfl), fun hx => ?_, fun hy => ?_,
    fun hx hc => ?_, fun _ => NameSet.not_mem_empty _, fun x => ?_⟩
  · rw [hmet hx]
    exact .refl
  · exact absurd hy (NameSet.not_mem_empty _)
  · obtain rfl := hmet hx
    have hpos := Forest.places_pos_of_child hc
    rw [hu.root] at hpos
    cases hpos
  · simp only [pending, Task.nodes, List.flatMap_cons, List.flatMap_nil, List.append_nil]
    exact List.count_le_length

/-- What the receiver makes of a match keeps below the sequence of the match. -/
theorem Received.reworked (hp : Program.compileAll items = .ok p)
    (edits : Handles Match.Operation.Copying receiver) (hf : s.forest.Closed)
    (ha : s.forest.Acyclic) (hu : s.forest.Unshared) (there : s.forest.contains seq = true)
    (attached : s.forest.Reaches s.forest.root seq)
    (hr : Received p options receiver s seq position b m data) :
    Reworked s.forest m.forest seq := by
  have first := Match.sound_ofCaptures hp hf ha there attached hr.found s.walk.found
  have sound := first.run (hr.run edits)
  have spared := first.spared (hr.run edits)
  exact ⟨sound.closed, sound.acyclic, first.unshared hu (hr.run edits), sound.root_there,
    spared.root, spared.children⟩

/-- A step that does not visit a sequence leaves what was visited, and moves on the agenda. -/
theorem Frontier.turn (hp : Program.compileAll items = .ok p) (hd : options.descend = true)
    (edits : Handles Match.Operation.Copying receiver)
    (h : Frontier s.forest s.walk.visited s.walk.agenda) (ht : Turn p options receiver s s') :
    Frontier s'.forest s'.walk.visited s'.walk.agenda := by
  have order := h.order
  cases ht with
  | seen agenda there =>
    rw [agenda] at h
    exact absurd there (h.new (by simp [Task.nodes]))
  | entered agenda new there =>
    rw [agenda] at h order
    simp only [Walk.visit, hd, if_true]
    cases order with
    | visit hr => exact h.enter hr new
    | between hr => cases hr
  | scanned agenda past =>
    rw [agenda] at h order
    cases order with
    | scan hr => exact h.replan (.between hr) fun x => rfl
    | between hr => cases hr
  | missed agenda there lt none =>
    rw [agenda] at h order
    cases order with
    | scan hr => exact h.replan (.scan hr) fun x => rfl
    | between hr => cases hr
  | nested agenda child =>
    rw [agenda] at h order
    cases order with
    | between hr =>
      cases hr with
      | cons there once tail =>
        refine h.replan (.visit (.cons there once tail)) fun x => ?_
        simp only [pending_cons, Task.nodes, drop_of_getElem? child]
        rfl
  | passed agenda child =>
    rw [agenda] at h order
    cases order with
    | between hr =>
      cases hr with
      | cons there once tail =>
        refine h.replan (.between (.cons there once tail)) fun x => ?_
        simp only [pending_cons, Task.nodes, drop_of_getElem? child, List.cons_append]
        rw [List.count_cons_of_ne (by simp)]
  | ended agenda none =>
    rw [agenda] at h order
    cases order with
    | between hr =>
      cases hr with
      | cons there once tail =>
        refine h.replan (.between tail) fun x => ?_
        simp only [pending_cons, Task.nodes]
        rw [List.drop_eq_nil_of_le (List.getElem?_eq_none_iff.1 none), List.nil_append]
  | @received seq position rest machine b m data after agenda there here length =>
    rw [agenda] at h order
    cases order with
    | scan hr =>
      have hin : seq ∈ s.walk.visited := by
        cases hr with
        | cons hin _ _ => exact hin
      have attached := h.reached (.inl hin)
      have hseq := (Program.match_within hp h.closed h.acyclic there here.found).1
      have hwork := here.reworked hp edits h.closed h.acyclic h.unshared there attached
      rw [hseq]
      exact h.rework hwork hr _
    | between hr => cases hr

/-- As long as a search goes on, the frontier lies before what it has scanned. -/
theorem Frontier.steps {t : State σ} (hp : Program.compileAll items = .ok p)
    (hd : options.descend = true) (edits : Handles Match.Operation.Copying receiver)
    (h : Frontier s.forest s.walk.visited s.walk.agenda)
    (hs : Progress.steps (step p options receiver) n s = .more t) :
    Frontier t.forest t.walk.visited t.walk.agenda := by
  let frontier (s : State σ) := Frontier s.forest s.walk.visited s.walk.agenda
  have turn {s s' : State σ} (h : frontier s) (hstep : step p options receiver s = .more s') :
      frontier s' :=
    h.turn hp hd edits (turn_of_step hp h.closed h.acyclic hstep)
  exact Progress.steps_keep (P := frontier) turn h hs

theorem steps_of_search {v : Value} {level : Nat} {r : Result σ} (hl : options.limit = none)
    (hs : p.search options level receiver (.ofValue v) data = r) (hr : r.outcome = .ok counts) :
    Progress.steps (step p options receiver) (Nat.pow 2 level) (start (.ofValue v) data) =
      .done r := by
  rw [← Progress.run_eq_steps]
  rw [Program.search, if_neg (by simp [hl])] at hs
  cases hrun : Progress.run (step p options receiver) level (start (.ofValue v) data) with
  | done r' =>
    rw [hrun] at hs
    rw [← hs]
  | more s =>
    rw [hrun] at hs
    obtain rfl := hs
    cases hr

/-- A search with descent and without a limit that ends well has scanned the sequences of the final
tree, each once, and has counted them. What it has scanned is attached to the root all the time. -/
theorem search_scans_each_sequence_once (hp : Program.compileAll items = .ok p)
    (hd : options.descend = true) (hl : options.limit = none)
    (edits : Handles Match.Operation.Copying receiver) {v : Value} {level : Nat} {r : Result σ}
    (hs : p.search options level receiver (.ofValue v) data = r) (hr : r.outcome = .ok counts) :
    let scanned := scans p options receiver (Nat.pow 2 level) (start (.ofValue v) data)
    scanned.Nodup ∧ (∀ x, x ∈ scanned ↔ r.forest.Reaches r.forest.root x) ∧
      counts.sequences = scanned.length ∧
      ∀ n t, Progress.steps (step p options receiver) n (start (.ofValue v) data) = .more t →
        ∀ x ∈ scans p options receiver n (start (.ofValue v) data),
          t.forest.Reaches t.forest.root x := by
  intro scanned
  have h : Frontier (start (.ofValue v) data).forest (start (.ofValue v) data).walk.visited
      (start (.ofValue v) data).walk.agenda :=
    .start (Forest.closed_ofValue v) (Forest.acyclic_ofValue v) (Forest.unshared_ofValue v)
      (Forest.contains_root_ofValue v)
  obtain ⟨m, t, hm, hdone, hscans⟩ := scans_done (steps_of_search hl hs hr)
  change scanned = _ at hscans
  obtain ⟨agenda, hforest, rfl⟩ := step_done edits hl hdone hr
  have frontier := h.steps hp hd edits hm
  obtain ⟨nodup, visited, count⟩ := scans_of_steps h.order.scansFirst hm
  rw [agenda] at frontier
  rw [hscans]
  refine ⟨nodup, fun x => ?_, ?_, fun n u hu x hx => ?_⟩
  · rw [hforest, ← frontier.visited_iff, visited]
    exact ⟨.inr, fun hx => hx.resolve_left (NameSet.not_mem_empty x)⟩
  · exact count.trans (Nat.zero_add _)
  · obtain ⟨-, visited, -⟩ := scans_of_steps h.order.scansFirst hu
    exact (h.steps hp hd edits hu).reached (.inl ((visited x).2 (.inr hx)))

/-- A capture goes up by a swap, and a new sequence takes the place of what came down. -/
theorem search_scans_each_sequence_once_inserted :
    let items : List Pattern :=
      [.named "x" [.literal (.int 1)], .named "y" [.sequence [.named "z" [.any]]]]
    let v : Value := .seq [.scalar (.int 1), .seq [.scalar .null]]
    let operations : Match → List Match.Operation := fun m =>
      [.swap ⟨m.id, 1⟩ ⟨m.id, 3⟩, .putValues ⟨m.id, 1⟩ [.seq []]]
    let r := (Program.ofItems items).search {} 5 (making operations : Receiver Unit) (.ofValue v) ()
    let scanned := scans (Program.ofItems items) {} (making operations : Receiver Unit)
      (Nat.pow 2 5) (start (.ofValue v) ())
    r.outcome = .ok ⟨1, 3, 2, 13, false⟩ ∧ scanned.length = 3 ∧
      r.forest.Reaches r.forest.root ⟨2⟩ := by
  intro items v operations r scanned
  have hcompiled : Program.compileAll items = .ok (Program.ofItems items) := by rfl
  have edits : Handles Match.Operation.Copying (making operations : Receiver Unit) :=
    handles_making (by simp [operations, Match.Operation.Copying])
  have outcome : r.outcome = .ok ⟨1, 3, 2, 13, false⟩ :=
    Except.toOption_eq_some_iff.1 (by decide +kernel)
  obtain ⟨-, all, count, -⟩ := search_scans_each_sequence_once hcompiled rfl rfl edits rfl outcome
  exact ⟨outcome, count.symm, (all ⟨2⟩).1 (by decide +kernel)⟩

end NestedRegex.Search
