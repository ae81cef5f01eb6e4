import NestedRegex.Proofs.Search.Line

namespace NestedRegex.Search

open Relation

/-- The whole match has kept up with the edits: if it is still held in its sequence, it stops where
the children behind it begin. One node in place of a match of one node is stepped over anyway. -/
def Tracks (m : Match) (found : Span) (before after : Nat) : Prop :=
  ∀ s, m.span m.whole = .ok s → s.seq = found.seq →
    s.stop + before = found.stop + after ∨
      s.stop = found.start ∧ found.length = 1 ∧ after = before

/-- A step of a scan that goes on with the scan. -/
def ScanStep (p : Program) (options : Options) (receiver : Receiver σ) (s s' : State σ) : Prop :=
  step p options receiver s = .more s' ∧ ∃ seq position position' rest,
    s.walk.agenda = .scan seq position :: rest ∧ s'.walk.agenda = .scan seq position' :: rest

/-- If the next position of the scan has a match, the whole match keeps up with the receiver. -/
def Tracked (p : Program) (options : Options) (receiver : Receiver σ) (s : State σ) : Prop :=
  ∀ seq position rest b m data, s.walk.agenda = .scan seq position :: rest →
    Received p options receiver s seq position b m data →
    Tracks m b.whole (s.forest.nodesOf seq).length (m.forest.nodesOf seq).length

/-- The children that are left to the scan that is under way. -/
def State.ahead (s : State σ) : List Node :=
  match s.walk.agenda with
  | .scan seq position :: _ => (s.forest.nodesOf seq).drop position
  | _ => []

variable {σ : Type} {p : Program} {options : Options} {receiver : Receiver σ} {s t : State σ}
  {items : List Pattern} {allowed : Match.Operation → Prop} {f : Forest} {rest : List Task}
  {seq : SeqName} {position n : Nat} {b : Captures} {m : Match} {data data' : σ}
  {found : Span} {held : Option Span} {before after stop : Nat}

theorem ahead_of_agenda (h : s.walk.agenda = .scan seq position :: rest) :
    s.ahead = (s.forest.nodesOf seq).drop position := by
  simp only [State.ahead, h]

/-- Without the whole match the change of length says where the children behind it begin. -/
theorem resumeAt_lost (hpos : 0 < found.length) (hle : found.start ≤ stop)
    (hafter : after + found.stop = stop + before)
    (lost : ∀ s, held = some s → s.seq ≠ found.seq) :
    resumeAt found.start found held before after = stop := by
  have hstop : found.stop + after - before = stop := by omega
  have hlen : found.stop = found.start + found.length := rfl
  have heq : resumeAt found.start found held before after =
      if found.start < stop ∨ after < before then max stop found.start else found.start + 1 := by
    unfold resumeAt
    cases held with
    | none => simp only [hstop]
    | some s => simp only [if_neg (lost s rfl), hstop]
  rw [heq]
  by_cases hc : found.start < stop ∨ after < before
  · rw [if_pos hc]
    omega
  · omega

/-- A scan goes on where the children behind the match begin, or before that; it goes on just there
if the whole match has kept up. -/
theorem resumeAt_cases (hpos : 0 < found.length) (hle : found.start ≤ stop)
    (hafter : after + found.stop = stop + before)
    (hs : ∀ s, held = some s → s.seq = found.seq → found.start ≤ s.stop ∧ s.stop ≤ stop) :
    resumeAt found.start found held before after ≤ stop ∧
      (resumeAt found.start found held before after = stop ↔
        ∀ s, held = some s → s.seq = found.seq → s.stop + before = found.stop + after ∨
          s.stop = found.start ∧ found.length = 1 ∧ after = before) := by
  have hlen : found.stop = found.start + found.length := rfl
  by_cases hheld : ∃ s, held = some s ∧ s.seq = found.seq
  · obtain ⟨s, rfl, e⟩ := hheld
    obtain ⟨hstart, hstop⟩ := hs s rfl e
    rw [resumeAt_held e]
    simp only [Option.some.injEq, forall_eq', e, true_implies]
    by_cases hc : found.start < s.stop ∨ after < before
    · rw [if_pos hc]
      omega
    · rw [if_neg hc]
      omega
  · have lost : ∀ s, held = some s → s.seq ≠ found.seq := fun s hs e => hheld ⟨s, hs, e⟩
    rw [resumeAt_lost hpos hle hafter lost]
    exact ⟨Nat.le_refl _, iff_of_true rfl fun s hs e => absurd e (lost s hs)⟩

section Received

variable (hp : Program.compileAll items = .ok p) (edits : Handles allowed receiver)
  (h : InLine s.forest (.scan seq position :: rest))
  (hr : Received p options receiver s seq position b m data)
include hp edits h hr

/-- What is before a match stays, what is behind it is not skipped, and the scan goes on with just
that if the whole match has kept up. -/
theorem Received.resumed :
    (m.forest.nodesOf seq).take position = (s.forest.nodesOf seq).take position ∧
      (s.forest.nodesOf seq).drop b.whole.stop <:+
        (m.forest.nodesOf seq).drop (resumeAt position b.whole (m.span m.whole).toOption
          (s.forest.nodesOf seq).length (m.forest.nodesOf seq).length) ∧
      ((m.forest.nodesOf seq).drop (resumeAt position b.whole (m.span m.whole).toOption
          (s.forest.nodesOf seq).length (m.forest.nodesOf seq).length) =
        (s.forest.nodesOf seq).drop b.whole.stop ↔
        Tracks m b.whole (s.forest.nodesOf seq).length (m.forest.nodesOf seq).length) := by
  have there : s.forest.contains seq = true := h.contains List.mem_cons_self
  have sound := (hr.sound hp edits h).1
  obtain ⟨hseq, rfl, hstop, -⟩ := Program.match_within hp h.closed h.acyclic there hr.found
  have hpos := Program.match_nonempty hp h.closed h.acyclic there hr.lt hr.found
  obtain ⟨mid, hmid⟩ := sound.around
  rw [Forest.nodesOf_eq hmid]
  have hfront : ((s.forest.nodesOf seq).take b.whole.start).length = b.whole.start :=
    List.length_take_of_le (Nat.le_of_lt hr.lt)
  have hback : ((s.forest.nodesOf seq).drop b.whole.stop).length =
      (s.forest.nodesOf seq).length - b.whole.stop := List.length_drop
  -- The whole match cannot come to reach over the children before or behind it.
  have zone : ∀ t, (m.span m.whole).toOption = some t → t.seq = b.whole.seq →
      b.whole.start ≤ t.stop ∧
        t.stop ≤ ((s.forest.nodesOf seq).take b.whole.start ++ mid).length := by
    intro t ht e
    have hz := (sound.span (Except.toOption_eq_some_iff.1 ht)).2
    simp only [Match.InZone, Span.Fits, Match.margin, e.trans hseq, if_true,
      Forest.nodesOf_eq hmid, List.length_append, hfront, Span.stop] at hz ⊢
    omega
  have hbehind : b.whole.start ≤ ((s.forest.nodesOf seq).take b.whole.start ++ mid).length := by
    rw [List.length_append, hfront]
    exact Nat.le_add_right _ _
  have hafter : ((s.forest.nodesOf seq).take b.whole.start ++ mid ++
      (s.forest.nodesOf seq).drop b.whole.stop).length + b.whole.stop =
      ((s.forest.nodesOf seq).take b.whole.start ++ mid).length +
        (s.forest.nodesOf seq).length := by
    rw [List.length_append, hback, Nat.add_assoc, Nat.sub_add_cancel hstop]
  obtain ⟨hle, hiff⟩ := resumeAt_cases hpos hbehind hafter zone
  refine ⟨?_, ?_, ?_⟩
  · rw [List.append_assoc, List.take_left' hfront]
  · rw [List.drop_append_of_le_length hle]
    exact List.suffix_append _ _
  · rw [List.drop_append_eq_iff hle, hiff]
    simp only [Tracks, Except.toOption_eq_some_iff]

/-- Unless the limit is reached, the next step goes on with the scan. -/
theorem Received.step_more (agenda : s.walk.agenda = .scan seq position :: rest)
    (limit : ¬options.limit.any (· ≤ s.walk.found + 1)) :
    ∃ t, step p options receiver s = .more t ∧ t.forest = m.forest ∧
      t.walk.attempts = s.walk.attempts + 1 ∧
      t.walk.agenda = .scan seq (resumeAt position b.whole (m.span m.whole).toOption
        (s.forest.nodesOf seq).length (m.forest.nodesOf seq).length) :: rest := by
  have there : s.forest.contains seq = true := h.contains List.mem_cons_self
  have sound := (hr.sound hp edits h).1
  have hseq := (Program.match_within hp h.closed h.acyclic there hr.found).1
  obtain ⟨machine, hrun⟩ := run_of_match? hp h.closed h.acyclic there s.walk.machine hr.found
  have hlength : m.forest.length b.whole.seq = .ok (m.forest.nodesOf seq).length :=
    hseq.symm ▸ Forest.length_of_contains sound.there
  have hmove := Move.received ⟨agenda, there, hr.lt, hr.tried⟩ hrun hr.given
    (Bool.not_eq_true _ ▸ limit) hlength
  exact ⟨_, step_eq_more_iff.2 hmove, rfl, rfl, congrArg (Task.scan · _ :: rest) hseq⟩

end Received

/-- A step of a scan whose match is tracked makes one attempt and uses up children ahead of it. -/
theorem ScanStep.uses (hp : Program.compileAll items = .ok p) (edits : Handles allowed receiver)
    (h : InLine s.forest s.walk.agenda) (hs : ScanStep p options receiver s t)
    (tracked : Tracked p options receiver s) :
    t.walk.attempts = s.walk.attempts + 1 ∧ ∃ count, 0 < count ∧ count ≤ s.ahead.length ∧
      t.ahead = s.ahead.drop count := by
  obtain ⟨hstep, seq, position, position', rest, ha, ha'⟩ := hs
  rw [ha] at h
  -- A scan that ends leaves a shorter agenda.
  have away : ∀ {task rest'}, s.walk.agenda = task :: rest' → t.walk.agenda ≠ rest' := by
    intro task rest' hagenda ht
    obtain ⟨-, rfl⟩ := List.cons.inj (ha.symm.trans hagenda)
    have hlen := congrArg List.length (ha'.symm.trans ht)
    simp at hlen
  cases turn_of_step hp h.closed h.acyclic hstep with
  | seen agenda _ | scanned agenda _ | ended agenda _ => exact absurd rfl (away agenda)
  | entered agenda _ _ | nested agenda _ | passed agenda _ => cases ha.symm.trans agenda
  | missed agenda there lt none =>
    obtain ⟨hscan, rfl⟩ := List.cons.inj (ha.symm.trans agenda)
    obtain ⟨rfl, rfl⟩ := Task.scan.inj hscan
    rw [ahead_of_agenda ha, ahead_of_agenda rfl]
    refine ⟨rfl, 1, Nat.one_pos, ?_, ?_⟩
    · rw [List.length_drop]
      exact Nat.sub_pos_of_lt lt
    · rw [List.drop_drop]
  | received agenda there here length =>
    obtain ⟨hscan, rfl⟩ := List.cons.inj (ha.symm.trans agenda)
    obtain ⟨rfl, rfl⟩ := Task.scan.inj hscan
    obtain ⟨hseq, hstart, hstop, -⟩ := Program.match_within hp h.closed h.acyclic there here.found
    obtain ⟨-, hlength⟩ := Forest.of_length_ok length
    have hrest := (here.resumed hp edits h).2.2.2 (tracked _ _ _ _ _ _ agenda here)
    rw [ahead_of_agenda ha, ahead_of_agenda rfl, hlength, hseq, hrest]
    rw [Span.stop, hstart] at hstop ⊢
    refine ⟨rfl, _, Program.match_nonempty hp h.closed h.acyclic there here.lt here.found, ?_, ?_⟩
    · rw [List.length_drop]
      omega
    · rw [List.drop_drop]

/-- Steps of a scan, with every match tracked. -/
def TrackedStep (p : Program) (options : Options) (receiver : Receiver σ) (s t : State σ) : Prop :=
  ScanStep p options receiver s t ∧ Tracked p options receiver s

theorem inLine_of_scan (hp : Program.compileAll items = .ok p) (edits : Handles allowed receiver)
    (h : InLine s.forest s.walk.agenda)
    (run : ReflTransGen (TrackedStep p options receiver) s t) :
    InLine t.forest t.walk.agenda := by
  induction run with
  | refl => exact h
  | tail _ hstep ih =>
    exact ih.turn hp edits (turn_of_step hp ih.closed ih.acyclic hstep.1.1)

/-- Each attempt uses up one at least of the children that were ahead. -/
theorem ahead_of_scan (hp : Program.compileAll items = .ok p) (edits : Handles allowed receiver)
    (h : InLine s.forest s.walk.agenda)
    (run : ReflTransGen (TrackedStep p options receiver) s t) :
    t.ahead <:+ s.ahead ∧
      t.walk.attempts + t.ahead.length ≤ s.walk.attempts + s.ahead.length := by
  induction run with
  | refl => exact ⟨List.suffix_refl _, Nat.le_refl _⟩
  | tail hrun hstep ih =>
    obtain ⟨ha, count, hpos, hle, hdrop⟩ :=
      hstep.1.uses hp edits (inLine_of_scan hp edits h hrun) hstep.2
    rw [ha, hdrop, List.length_drop]
    refine ⟨(List.drop_suffix _ _).trans ih.1, ?_⟩
    omega

/-- After every match, what stood before it is as it was and nothing behind it is skipped, and the
scan goes on with just that where the whole match has kept up. A scan whose matches all have tries
every child that was ahead at most once, and no other. -/
theorem scan_goes_on_behind_matches (hp : Program.compileAll items = .ok p)
    (edits : Handles (fun _ => True) receiver) (hf : f.Closed) (ha : f.Acyclic)
    (hroot : f.contains f.root = true)
    (hs : Progress.steps (step p options receiver) n (start f data) = .more s)
    (agenda : s.walk.agenda = .scan seq position :: rest) :
    (∀ b m data', Received p options receiver s seq position b m data' →
      let before := s.forest.nodesOf seq
      let after := m.forest.nodesOf seq
      let resume := resumeAt position b.whole (m.span m.whole).toOption before.length after.length
      (¬options.limit.any (· ≤ s.walk.found + 1) → ∃ t, step p options receiver s = .more t ∧
        t.forest = m.forest ∧ t.walk.agenda = .scan seq resume :: rest) ∧
      after.take position = before.take position ∧
      before.drop b.whole.stop <:+ after.drop resume ∧
      (after.drop resume = before.drop b.whole.stop ↔
        Tracks m b.whole before.length after.length)) ∧
    ∀ t, ReflTransGen (TrackedStep p options receiver) s t →
      t.ahead <:+ s.ahead ∧
      t.walk.attempts + t.ahead.length ≤ s.walk.attempts + s.ahead.length ∧
      ∀ u, TrackedStep p options receiver t u →
        u.walk.attempts = t.walk.attempts + 1 ∧ u.ahead.length < t.ahead.length := by
  have h := inLine_of_steps hp edits (InLine.start hf ha hroot data) hs
  have hscan : InLine s.forest (.scan seq position :: rest) := agenda ▸ h
  refine ⟨fun b m data' here => ?_, fun t run => ?_⟩
  · intro before after resume
    refine ⟨fun limit => ?_, here.resumed hp edits hscan⟩
    obtain ⟨t, ht, hforest, -, hagenda⟩ := here.step_more hp edits hscan agenda limit
    exact ⟨t, ht, hforest, hagenda⟩
  · obtain ⟨hsuffix, hcount⟩ := ahead_of_scan hp edits h run
    refine ⟨hsuffix, hcount, fun u hu => ?_⟩
    obtain ⟨hu, count, hpos, hle, hdrop⟩ := hu.1.uses hp edits (inLine_of_scan hp edits h run) hu.2
    refine ⟨hu, ?_⟩
    rw [hdrop, List.length_drop]
    omega

/-- A swap and new content below the match: the scan goes on with the last child. -/
theorem scan_goes_on_behind_matches_swapped :
    let items : List Pattern := [.sequence [.named "x" [.any]], .named "y" [.any]]
    let f := Forest.ofValue
      (.seq [.seq [.scalar (.string "a")], .scalar (.int 1), .scalar (.string "z")])
    let operations : Match → List Match.Operation := fun m =>
      [.swap ⟨m.id, 1⟩ ⟨m.id, 2⟩, .putValues ⟨m.id, 2⟩ [.seq [], .scalar (.int 2)]]
    let s : State Unit := ⟨(start f ()).walk.visit {} f.root [], f, ()⟩
    ∃ b m, Received (Program.ofItems items) {} (making operations) s f.root 0 b m () ∧
      ∃ t, step (Program.ofItems items) {} (making operations) s = .more t ∧
        t.ahead = [.scalar (.string "z")] ∧
        ∀ u, ReflTransGen (TrackedStep (Program.ofItems items) {} (making operations)) s u →
          u.walk.attempts ≤ 3 := by
  intro items f operations s
  let b : Captures := ⟨⟨⟨1⟩, 0, 2⟩, [some ⟨⟨0⟩, 0, 1⟩, some ⟨⟨1⟩, 1, 1⟩]⟩
  have hcompiled : Program.compileAll items = .ok (Program.ofItems items) := by rfl
  have edits : Handles (fun _ => True) (making operations : Receiver Unit) :=
    handles_making fun _ _ _ => trivial
  have hroot : f.contains f.root = true := by decide
  let m := (operations (.ofCaptures 0 (Program.ofItems items) f b)).foldl (fun m op => op.after m)
    (.ofCaptures 0 (Program.ofItems items) f b)
  have here : Received (Program.ofItems items) {} (making operations) s f.root 0 b m () :=
    ⟨by decide, by decide, by rfl, rfl⟩
  have hs : Progress.steps (step (Program.ofItems items) {} (making operations)) 1 (start f ()) =
      .more s := steps_start hroot ()
  have tracks : Tracks m b.whole (s.forest.nodesOf f.root).length
      (m.forest.nodesOf f.root).length := by
    intro u hu _
    have hspan : (m.span m.whole).toOption = some ⟨⟨1⟩, 0, 2⟩ := by decide +kernel
    obtain rfl := Option.some.inj ((Except.toOption_eq_some_iff.2 hu).symm.trans hspan)
    exact .inl (by decide +kernel)
  have h := scan_goes_on_behind_matches hcompiled edits (Forest.closed_ofValue _)
    (Forest.acyclic_ofValue _) hroot hs rfl
  obtain ⟨hgo, -, -, hexact⟩ := h.1 b m () here
  obtain ⟨t, ht, hforest, hagenda⟩ := hgo (by simp)
  have hthree : s.ahead.length = 3 := by decide
  refine ⟨b, m, here, t, ht, ?_, fun u run => ?_⟩
  · rw [ahead_of_agenda hagenda, hforest, hexact.2 tracks]
    decide +kernel
  · have hcount := (h.2 u run).2.1
    rw [hthree] at hcount
    exact Nat.le_trans (Nat.le_add_right _ _) (Nat.le_trans hcount (Nat.le_of_eq rfl))

/-- An emptied capture that was swapped to the end of the match and is filled again lies outside the
whole match, and the scan tries its new content. -/
theorem refilled_capture_is_tried :
    let items : List Pattern := [.sequence [.named "x" [.any]], .named "y" [.any]]
    let f := Forest.ofValue
      (.seq [.seq [.scalar (.string "a")], .scalar (.int 1), .scalar (.string "z")])
    let receiver : Receiver Unit := making fun m =>
      [.putValues ⟨m.id, 1⟩ [], .swap ⟨m.id, 1⟩ ⟨m.id, 2⟩,
        .putValues ⟨m.id, 1⟩ [.seq [.scalar (.string "b")], .scalar (.int 2)]]
    Program.compileAll items = .ok (Program.ofItems items) ∧ Handles (fun _ => True) receiver ∧
      ∃ s b m rest,
        Progress.steps (step (Program.ofItems items) {} receiver) 1 (start f ()) = .more s ∧
          s.walk.agenda = .scan f.root 0 :: rest ∧
          Received (Program.ofItems items) {} receiver s f.root 0 b m () ∧
          (s.forest.nodesOf f.root).drop b.whole.stop = [.scalar (.string "z")] ∧
          (m.forest.nodesOf f.root).drop (resumeAt 0 b.whole (m.span m.whole).toOption
            (s.forest.nodesOf f.root).length (m.forest.nodesOf f.root).length) =
            [.seq ⟨2⟩, .scalar (.int 2), .scalar (.string "z")] := by
  intro items f receiver
  let s : State Unit := ⟨(start f ()).walk.visit {} f.root [], f, ()⟩
  let b : Captures := ⟨⟨⟨1⟩, 0, 2⟩, [some ⟨⟨0⟩, 0, 1⟩, some ⟨⟨1⟩, 1, 1⟩]⟩
  have hsteps : Progress.steps (step (Program.ofItems items) {} receiver) 1 (start f ()) =
      .more s := steps_start (by decide) ()
  have here : Received (Program.ofItems items) {} receiver s f.root 0 b _ () :=
    ⟨by decide, by decide, by rfl, rfl⟩
  refine ⟨by rfl, handles_making fun _ _ _ => trivial, s, b, _, _, hsteps, rfl, here, ?_, ?_⟩
  · decide +kernel
  · decide +kernel

end NestedRegex.Search
