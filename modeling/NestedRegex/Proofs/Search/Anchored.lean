import NestedRegex.Proofs.Search.Bounds
import NestedRegex.Proofs.Search.Turns

namespace NestedRegex.Search

variable {σ : Type} {p : Program} {options : Options} {receiver : Receiver σ} {s s' : State σ}
  {f : Forest} {data : σ} {rest : List Task} {seq x : SeqName} {position n level : Nat}
  {r : Result σ} {counts : Counts}

/-- The sequence that a step of its scan leaves at its first position, if it has a child there. -/
def restarted (s s' : State σ) : Option SeqName :=
  match s.walk.agenda, s'.walk.agenda with
  | .scan _ _ :: _, .scan seq 0 :: _ =>
    if 0 < (s'.forest.nodesOf seq).length then some seq else none
  | _, _ => none

/-- The sequences that are tried anew in some steps, or in fewer if the search is done before. -/
def restarts (p : Program) (options : Options) (receiver : Receiver σ) :
    Nat → State σ → List SeqName
  | 0, _ => []
  | n + 1, s =>
    match step p options receiver s with
    | .more s' => (restarted s s').toList ++ restarts p options receiver n s'
    | .done _ => []

/-- After the edits nothing stands before what was behind the match: the sequence is shorter, and
the whole match stops at its front, or is held there no more and as many children are gone as stood
before its stop. -/
def Cleared (m : Match) (found : Span) (before after : Nat) : Prop :=
  after < before ∧
    ((∃ s, m.span m.whole = .ok s ∧ s.seq = found.seq ∧ s.stop = 0) ∨
      (∀ s, m.span m.whole = .ok s → s.seq ≠ found.seq) ∧ found.stop + after ≤ before)

theorem restarts_succ (h : step p options receiver s = .more s') :
    restarts p options receiver (n + 1) s =
      (restarted s s').toList ++ restarts p options receiver n s' := by
  rw [restarts, h]

theorem restarted_of_agenda {t : Task} (agenda : s.walk.agenda = t :: rest)
    (ht : ∀ seq position, t ≠ .scan seq position) : restarted s s' = none := by
  unfold restarted
  rw [agenda]
  split
  · next e _ => exact absurd (List.cons.inj e).1 (ht _ _)
  · rfl

/-- A scan goes on at the first position just if it stood there and the match has been cleared. -/
theorem resumeAt_eq_zero_iff {m : Match} {found : Span} {before after : Nat} :
    resumeAt position found (m.span m.whole).toOption before after = 0 ↔
      position = 0 ∧ Cleared m found before after := by
  have target (resume : Nat) : (if position < resume ∨ after < before then max resume position
      else position + 1) = 0 ↔ position = 0 ∧ after < before ∧ resume = 0 := by
    by_cases h : position < resume ∨ after < before
    · rw [if_pos h]
      omega
    · rw [if_neg h]
      omega
  simp only [resumeAt, target, Cleared]
  cases hm : m.span m.whole with
  | error e => simp [Except.toOption, Nat.sub_eq_zero_iff_le]
  | ok s =>
    by_cases hs : s.seq = found.seq
    · simp [Except.toOption, hs]
    · simp [Except.toOption, hs, Nat.sub_eq_zero_iff_le]

/-- What a scan that ends leaves behind is no scan. -/
theorem restarted_of_past (hs : ScansFirst s.walk.agenda)
    (agenda : s.walk.agenda = .scan seq position :: rest) :
    restarted s { s with walk.agenda := rest } = none := by
  unfold restarted
  dsimp only
  split
  · rw [agenda] at hs
    exact absurd List.mem_cons_self (hs _ _)
  · rfl

theorem restarted_of_scan {i : Nat} {rest' : List Task}
    (agenda : s.walk.agenda = .scan seq position :: rest)
    (agenda' : s'.walk.agenda = .scan x i :: rest') :
    restarted s s' = if i = 0 ∧ 0 < (s'.forest.nodesOf x).length then some x else none := by
  unfold restarted
  rw [agenda, agenda']
  cases i <;> simp

/-- Only one position of one sequence is to be tried next. -/
theorem Tries.unique {i : Nat} {rest' : List Task} (tries : Tries options s x i rest')
    (agenda : s.walk.agenda = .scan seq position :: rest) : seq = x ∧ position = i := by
  obtain ⟨hscan, -⟩ := List.cons.inj (agenda.symm.trans tries.agenda)
  exact Task.scan.inj hscan

/-- A step leaves a scan at its first position just if it has been cleared of the match there and
has a child left. -/
theorem restarted_eq_some_iff (hs : ScansFirst s.walk.agenda)
    (h : Move p options receiver s s') :
    restarted s s' = some x ↔ ∃ rest b machine m data', Tries options s x 0 rest ∧
      s.walk.machine.run s.forest p x 0 = .ok (some b, machine) ∧
      receiver (.ofCaptures s.walk.found p s.forest b, s.data) = .ok .proceed (m, data') ∧
      Cleared m b.whole (s.forest.nodesOf x).length (m.forest.nodesOf x).length ∧
      0 < (m.forest.nodesOf x).length := by
  cases h with
  | seen agenda _ | entered agenda _ _ | nested agenda _ _ | passed agenda _ _
    | ended agenda _ _ =>
    rw [restarted_of_agenda agenda (by simp)]
    refine iff_of_false nofun ?_
    intro ⟨rest', b, machine, m, data', tries, _⟩
    cases agenda.symm.trans tries.agenda
  | scanned agenda _ past =>
    rw [restarted_of_past hs agenda]
    refine iff_of_false nofun ?_
    intro ⟨rest', b, machine, m, data', tries, _⟩
    obtain ⟨rfl, rfl⟩ := tries.unique agenda
    exact past ⟨tries.lt, tries.tried⟩
  | missed tries none =>
    rw [restarted_of_scan tries.agenda rfl, if_neg (by simp)]
    refine iff_of_false nofun ?_
    intro ⟨rest', b, machine, m, data', tries', found, _⟩
    obtain ⟨rfl, rfl⟩ := tries'.unique tries.agenda
    cases none.symm.trans found
  | @received seq position rest machine b m data' after tries found given below length =>
    obtain ⟨hseq, -⟩ := Machine.whole_of_run found
    obtain ⟨-, rfl⟩ := Forest.of_length_ok length
    rw [restarted_of_scan tries.agenda rfl, Option.ite_none_right_eq_some, resumeAt_eq_zero_iff,
      hseq]
    constructor
    · intro ⟨⟨⟨hposition, cleared⟩, left⟩, hx⟩
      obtain rfl := hposition
      obtain rfl := Option.some.inj hx
      exact ⟨rest, b, machine, m, data', tries, found, given, cleared, left⟩
    · intro ⟨rest', b', machine', m', data'', tries', found', given', cleared, left⟩
      obtain ⟨rfl, rfl⟩ := tries'.unique tries.agenda
      obtain ⟨hb, -⟩ := Prod.mk.inj (Except.ok.inj (found.symm.trans found'))
      obtain rfl := Option.some.inj hb
      cases given.symm.trans given'
      exact ⟨⟨⟨rfl, cleared⟩, left⟩, rfl⟩

theorem agenda_of_tried (h : tried options s = some (seq, position)) :
    ∃ rest, s.walk.agenda = .scan seq position :: rest ∧
      position < (s.forest.nodesOf seq).length ∧ ¬(options.anchored ∧ 0 < position) := by
  unfold tried at h
  split at h
  · next agenda =>
    obtain ⟨go, h⟩ := Option.ite_none_right_eq_some.1 h
    obtain ⟨rfl, rfl⟩ := Prod.mk.inj (Option.some.inj h)
    exact ⟨_, agenda, go⟩
  · cases h

/-- In an anchored search only the first position of a sequence is tried. -/
theorem tried_zero (anchored : options.anchored = true)
    (h : tried options s = some (seq, position)) : position = 0 := by
  obtain ⟨-, -, -, first⟩ := agenda_of_tried h
  exact Nat.eq_zero_of_not_pos fun hpos => first ⟨anchored, hpos⟩

theorem tries_zero (anchored : options.anchored = true)
    (h : (seq, position) ∈ tries p options receiver n s) : position = 0 := by
  induction n generalizing s with
  | zero => cases h
  | succ n ih =>
    rw [tries] at h
    rcases List.mem_append.1 h with here | later
    · exact tried_zero anchored (Option.mem_toList.1 here)
    · split at later
      · exact ih later
      · cases later

/-- What is tried next, the step before has begun to scan or has left at its first position. -/
theorem tried_of_move (anchored : options.anchored = true) (hs : ScansFirst s.walk.agenda)
    (h : Move p options receiver s s') :
    ((tried options s').toList.map Prod.fst).Sublist
      ((begun s s').toList ++ (restarted s s').toList) := by
  cases ht : tried options s' with
  | none => exact List.nil_sublist _
  | some place =>
    obtain ⟨x, i⟩ := place
    obtain rfl := tried_zero anchored ht
    obtain ⟨rest', agenda', lt, -⟩ := agenda_of_tried ht
    rw [Option.toList_some, List.map_singleton, List.singleton_sublist, List.mem_append,
      Option.mem_toList, Option.mem_toList]
    -- Behind a descent no scan is left to go on with.
    cases h with
    | seen agenda _ | entered agenda _ _ =>
      left
      rw [begun, agenda, agenda']
    | scanned agenda _ _ =>
      right
      rw [restarted_of_scan agenda agenda', if_pos ⟨rfl, lt⟩]
    | missed tries _ | received tries _ _ _ _ =>
      right
      rw [restarted_of_scan tries.agenda agenda', if_pos ⟨rfl, lt⟩]
    | nested _ _ _ | passed _ _ _ => cases agenda'
    | @ended seq index rest agenda _ _ =>
      obtain rfl : rest = .scan x 0 :: rest' := agenda'
      rw [agenda] at hs
      exact absurd List.mem_cons_self (hs x 0)

/-- The sequences that are tried in some steps and a last attempt are those tried at first, those
whose scans begin and those that are left at their first position. -/
theorem tries_le (p : Program) (receiver : Receiver σ) (anchored : options.anchored = true)
    (hs : ScansFirst s.walk.agenda) (n : Nat) :
    (((tries p options receiver (n + 1) s).map Prod.fst : List SeqName) : Multiset SeqName) ≤
      ((tried options s).toList.map Prod.fst : List SeqName) +
        ((scans p options receiver n s : Multiset SeqName) + restarts p options receiver n s) := by
  induction n generalizing s with
  | zero =>
    have htries : tries p options receiver 1 s = (tried options s).toList := by
      rw [tries]
      split <;> exact List.append_nil _
    rw [htries]
    exact Multiset.le_add_right _ _
  | succ n ih =>
    cases hstep : step p options receiver s with
    | done r =>
      rw [tries_succ_done hstep]
      exact Multiset.le_add_right _ _
    | more s' =>
      have hm := step_eq_more_iff.1 hstep
      have now := Multiset.coe_le.2 (tried_of_move anchored hs hm).subperm
      rw [tries_succ hstep, scans_succ hstep, restarts_succ hstep, List.map_append]
      simp only [← Multiset.coe_add] at now ⊢
      refine add_le_add_right ?_ _
      calc (((tries p options receiver (n + 1) s').map Prod.fst : List SeqName) : Multiset SeqName)
        _ ≤ _ := ih (hs.move hm)
        _ ≤ _ := add_le_add_left now _
        _ = _ := add_add_add_comm _ _ _ _

theorem tried_of_restarted (h : restarted s s' = some x) : tried options s' = some (x, 0) := by
  unfold restarted at h
  split at h
  · next agenda =>
    obtain ⟨left, h⟩ := Option.ite_none_right_eq_some.1 h
    obtain rfl := Option.some.inj h
    unfold tried
    rw [agenda]
    exact if_pos ⟨left, fun first => Nat.lt_irrefl 0 first.2⟩
  · cases h

/-- A sequence that is left at its first position has been tried there and is tried once more. -/
theorem not_nodup_of_restarts (hs : ScansFirst s.walk.agenda)
    (hx : x ∈ restarts p options receiver n s) :
    ¬(tries p options receiver (n + 1) s).Nodup := by
  induction n generalizing s with
  | zero => cases hx
  | succ n ih =>
    cases hstep : step p options receiver s with
    | done r =>
      simp only [restarts, hstep] at hx
      cases hx
    | more s' =>
      have hm := step_eq_more_iff.1 hstep
      rw [restarts_succ hstep] at hx
      rw [tries_succ hstep]
      intro nodup
      rcases List.mem_append.1 hx with here | later
      · have here := Option.mem_toList.1 here
        obtain ⟨_, _, _, _, _, before, -⟩ := (restarted_eq_some_iff hs hm).1 here
        rw [tried_of_tries before, tries, tried_of_restarted here] at nodup
        simp at nodup
      · exact ih (hs.move hm) later (List.nodup_append.1 nodup).2.1

theorem tries_prefix_succ (p : Program) (options : Options) (receiver : Receiver σ) (n : Nat)
    (s : State σ) : tries p options receiver n s <+: tries p options receiver (n + 1) s := by
  induction n generalizing s with
  | zero => exact List.nil_prefix
  | succ n ih =>
    cases hstep : step p options receiver s with
    | done r =>
      rw [tries_succ_done hstep, tries_succ_done hstep]
    | more s' =>
      rw [tries_succ hstep, tries_succ hstep]
      exact (List.prefix_append_right_inj _).2 (ih s')

theorem scansFirst_start (f : Forest) (data : σ) : ScansFirst (start f data).walk.agenda :=
  fun _ _ => List.not_mem_nil

/-- What a search from its start tries, it begins to scan or leaves at the first position. -/
theorem tries_start_le (p : Program) (receiver : Receiver σ) (f : Forest) (data : σ)
    (anchored : options.anchored = true) (n : Nat) :
    (((tries p options receiver (n + 1) (start f data)).map Prod.fst : List SeqName) :
        Multiset SeqName) ≤
      scans p options receiver n (start f data) + restarts p options receiver n (start f data) := by
  have le := tries_le p receiver anchored (scansFirst_start f data) n
  rw [tried_of_agenda rfl (by simp)] at le
  simpa using le

/-- No attempt is made twice just if no sequence is left at its first position. -/
theorem nodup_tries_iff (anchored : options.anchored = true) (n : Nat) :
    (tries p options receiver (n + 1) (start f data)).Nodup ↔
      restarts p options receiver n (start f data) = [] := by
  have first := scansFirst_start f data
  constructor
  · intro nodup
    refine List.eq_nil_iff_forall_not_mem.2 fun x hx => ?_
    exact not_nodup_of_restarts first hx nodup
  · intro none
    have le := tries_start_le p receiver f data anchored n
    rw [none] at le
    have once : (scans p options receiver n (start f data)).Nodup := nodup_scans first n
    refine List.Nodup.of_map Prod.fst (Multiset.coe_nodup.1 (Multiset.nodup_of_le le ?_))
    simpa using once

theorem Move.found_le (h : Move p options receiver s s')
    (le : s.walk.found ≤ s.walk.attempts) : s'.walk.found ≤ s'.walk.attempts := by
  cases h with
  | seen | entered | scanned | nested | passed | ended => exact le
  | missed => exact Nat.le_succ_of_le le
  | received => exact Nat.succ_le_succ le

theorem Halt.found_le (h : Halt p options receiver s r) (hr : r.outcome = .ok counts)
    (le : s.walk.found ≤ s.walk.attempts) : counts.found ≤ counts.attempts := by
  cases h with
  | finished =>
    obtain rfl := Except.ok.inj hr
    exact le
  | stopped =>
    obtain rfl := Except.ok.inj hr
    exact Nat.succ_le_succ le
  | missing | unscanned | failed | refused | lost | undescended => cases hr

/-- As many matches are found as attempts are made, or fewer. -/
theorem found_le_attempts : ∀ counts, (p.search options level receiver f data).outcome =
    .ok counts → counts.found ≤ counts.attempts := by
  refine search_ends (P := fun s => s.walk.found ≤ s.walk.attempts)
    (Q := fun r => ∀ counts, r.outcome = .ok counts → counts.found ≤ counts.attempts)
    (Nat.le_refl 0) (fun le hm => hm.found_le le) (fun le hh counts hr => hh.found_le hr le) ?_ ?_
  · intro counts hr
    obtain rfl := Except.ok.inj hr
    exact Nat.le_refl 0
  · intro s le counts hr
    cases hr

/-- The sequences of a search that ends well are those whose scans have begun. -/
theorem sequences_of_steps (hs : ScansFirst s.walk.agenda)
    (h : Progress.steps (step p options receiver) n s = .done r) (hr : r.outcome = .ok counts) :
    counts.sequences = s.walk.sequences + (scans p options receiver n s).length := by
  obtain ⟨m, t, ht, hdone, hscans⟩ := scans_done h
  rw [hscans, ← (scans_of_steps hs ht).2.2]
  cases step_eq_done_iff.1 hdone with
  | finished | stopped =>
    obtain rfl := Except.ok.inj hr
    rfl
  | missing | unscanned | failed | refused | lost | undescended => cases hr

/-- A finished search has made an attempt for each scan and each time that one was left at its
first position, or fewer. -/
theorem attempts_le (anchored : options.anchored = true)
    (h : (p.search options level receiver f data).outcome = .ok counts) :
    counts.attempts ≤ counts.sequences +
      (restarts p options receiver (Nat.pow 2 level) (start f data)).length := by
  unfold Program.search at h
  split at h
  · obtain rfl := Except.ok.inj h
    exact Nat.zero_le _
  · rw [Progress.run_eq_steps] at h
    cases hs : Progress.steps (step p options receiver) (Nat.pow 2 level) (start f data) with
    | more t =>
      rw [hs] at h
      cases h
    | done r =>
      rw [hs] at h
      have le := Multiset.card_le_card (tries_start_le p receiver f data anchored (Nat.pow 2 level))
      have fewer :=
        (tries_prefix_succ p options receiver (Nat.pow 2 level) (start f data)).length_le
      rw [attempts_of_steps hs h, sequences_of_steps (scansFirst_start f data) hs h]
      simp only [Multiset.card_add, Multiset.coe_card, List.length_map] at le
      change 0 + _ ≤ 0 + _ + _
      rw [Nat.zero_add, Nat.zero_add]
      exact Nat.le_trans fewer le

/-- A position of a sequence is tried once, and once more each time that the scan is left at the
first position. -/
theorem count_tries_le (anchored : options.anchored = true) (n : Nat) (x : SeqName) :
    (tries p options receiver (n + 1) (start f data)).count (x, 0) ≤
      1 + (restarts p options receiver n (start f data)).count x := by
  have le := Multiset.count_le_of_le x (tries_start_le p receiver f data anchored n)
  have nodup : (scans p options receiver n (start f data)).Nodup :=
    nodup_scans (scansFirst_start f data) n
  have once := List.nodup_iff_count_le_one.1 nodup x
  simp only [Multiset.count_add, Multiset.coe_count] at le
  calc (tries p options receiver (n + 1) (start f data)).count (x, 0)
    _ ≤ ((tries p options receiver (n + 1) (start f data)).map Prod.fst).count x :=
      List.count_le_count_map (f := Prod.fst) (x := (x, 0))
    _ ≤ _ := le
    _ ≤ _ := Nat.add_le_add_right once _

/-- An anchored search tries only the first position of a sequence, once for its scan and once more
each time that the scan is left there: after a match that is cleared away while children are left.
Apart from that a finished search has made at most one attempt and found at most one match for each
sequence. -/
theorem anchored_search_attempts (anchored : options.anchored = true) (p : Program)
    (receiver : Receiver σ) (f : Forest) (data : σ) :
    (∀ n x i, (x, i) ∈ tries p options receiver n (start f data) → i = 0) ∧
      (∀ n x, (tries p options receiver (n + 1) (start f data)).count (x, 0) ≤
        1 + (restarts p options receiver n (start f data)).count x) ∧
      (∀ n, (tries p options receiver (n + 1) (start f data)).Nodup ↔
        restarts p options receiver n (start f data) = []) ∧
      (∀ level counts, (p.search options level receiver f data).outcome = .ok counts →
        counts.found ≤ counts.attempts ∧ counts.attempts ≤ counts.sequences +
          (restarts p options receiver (Nat.pow 2 level) (start f data)).length) ∧
      ∀ n s s', Progress.steps (step p options receiver) n (start f data) = .more s →
        step p options receiver s = .more s' →
        ∀ x, restarted s s' = some x ↔ ∃ rest b machine m data', Tries options s x 0 rest ∧
          s.walk.machine.run s.forest p x 0 = .ok (some b, machine) ∧
          receiver (.ofCaptures s.walk.found p s.forest b, s.data) = .ok .proceed (m, data') ∧
          Cleared m b.whole (s.forest.nodesOf x).length (m.forest.nodesOf x).length ∧
          0 < (m.forest.nodesOf x).length := by
  refine ⟨fun n x i => tries_zero anchored, count_tries_le anchored, nodup_tries_iff anchored,
    fun level counts h => ⟨found_le_attempts counts h, attempts_le anchored h⟩, ?_⟩
  intro n s s' hs hstep x
  have scansFirst := Progress.steps_keep (P := fun s => ScansFirst s.walk.agenda)
    (fun h hstep => h.move (step_eq_more_iff.1 hstep)) (scansFirst_start f data) hs
  exact restarted_eq_some_iff scansFirst (step_eq_more_iff.1 hstep)

/-- A match that is replaced by a sequence: the scan goes on behind that, and it is tried later. -/
theorem anchored_search_attempts_replaced :
    let options : Options := { anchored := true }
    let p := Program.ofItems [.named "x" [.literal (.int 1)]]
    let receiver : Receiver Unit := making fun m =>
      [.putValues m.whole [.seq [.scalar (.int 2), .scalar (.int 1)]]]
    let f := Forest.ofValue
      (.seq [.scalar (.int 1), .seq [.scalar (.int 1), .scalar .null], .seq []])
    (tries p options receiver 33 (start f ())).Nodup ∧
      (p.search options 5 receiver f ()).outcome = .ok ⟨2, 5, 4, 12, false⟩ ∧
      4 ≤ 5 + (restarts p options receiver (Nat.pow 2 5) (start f ())).length := by
  intro options p receiver f
  have anchored : options.anchored = true := rfl
  obtain ⟨-, -, once, counted, -⟩ := anchored_search_attempts anchored p receiver f ()
  have outcome : (p.search options 5 receiver f ()).outcome = .ok ⟨2, 5, 4, 12, false⟩ :=
    Except.toOption_eq_some_iff.1 (by decide +kernel)
  exact ⟨(once 32).2 (by decide +kernel), outcome, (counted 5 _ outcome).2⟩

/-- The first match is deleted, and its sequence is tried a second time. -/
theorem deleted_front_is_tried_again :
    let items : List Pattern := [.any]
    let options : Options := { anchored := true }
    let receiver : Receiver Unit := making fun m => [.putValues m.whole []]
    let r := (Program.ofItems items).search options 4 receiver
      (.ofValue (.seq [.scalar (.int 1), .scalar (.int 2)])) ()
    Program.compileAll items = .ok (Program.ofItems items) ∧
      r.outcome = .ok ⟨2, 1, 2, 4, false⟩ ∧ r.forest.rows = #[#[]] := by
  intro items options receiver r
  exact ⟨rfl, Except.toOption_eq_some_iff.1 (by decide +kernel), by decide +kernel⟩

end NestedRegex.Search
