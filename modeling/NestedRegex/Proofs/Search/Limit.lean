import NestedRegex.Proofs.Search.Watched

namespace NestedRegex.Search

variable {σ τ : Type} {p : Program} {options : Options} {receiver : Receiver σ}
  {other : Receiver τ} {view : σ → Nat → τ} {stops : Nat → Bool} {k : Nat} {s s' : State σ}
  {r : Result σ}

/-- A receiver that counts its calls and stops the search at call number `k`, if it is not refused.
-/
def stoppingAt (k : Nat) (receiver : Receiver σ) : Receiver (σ × Nat) := fun (m, data, calls) =>
  match receiver (m, data) with
  | .ok next (m', data) => .ok (if calls + 1 = k then .stop else next) (m', data, calls + 1)
  | .error e (m', data) => .error e (m', data, calls + 1)

/-- The other receiver does the same with every match, and stops the search at some of its calls
besides. Its data shows the data of the first one and how many calls there were. -/
structure Follows (stops : Nat → Bool) (receiver : Receiver σ) (other : Receiver τ)
    (view : σ → Nat → τ) : Prop where
  ok {m m' : Match} {next : Next} {data data' : σ} (calls : Nat)
    (h : receiver (m, data) = .ok next (m', data')) : other (m, view data calls) =
      .ok (if stops (calls + 1) then .stop else next) (m', view data' (calls + 1))
  error {m m' : Match} {e : Failure Search.Error} {data data' : σ} (calls : Nat)
    (h : receiver (m, data) = .error e (m', data')) : other (m, view data calls) =
      .error e (m', view data' (calls + 1))

theorem follows_self (receiver : Receiver σ) :
    Follows (fun _ => false) receiver receiver fun data _ => data :=
  ⟨fun _ h => h, fun _ h => h⟩

theorem follows_stoppingAt (k : Nat) (receiver : Receiver σ) :
    Follows (· = k) receiver (stoppingAt k receiver) fun data calls => (data, calls) where
  ok calls h := by simp [stoppingAt, h]
  error calls h := by simp [stoppingAt, h]

/-- What follows a receiver still does when both note the matches. -/
theorem Follows.recording (like : Follows stops receiver other view) :
    Follows stops (recording receiver) (recording other)
      fun noted calls => (view noted.1 calls, noted.2) where
  ok {m m' next noted noted'} calls h := by
    unfold Search.recording at h ⊢
    dsimp only at h ⊢
    cases hm : receiver (m, noted.1) with
    | ok next' next'' =>
      rw [hm] at h
      cases h
      rw [like.ok calls hm]
    | error e end' =>
      rw [hm] at h
      cases h
  error {m m' e noted noted'} calls h := by
    unfold Search.recording at h ⊢
    dsimp only at h ⊢
    cases hm : receiver (m, noted.1) with
    | ok next' next'' =>
      rw [hm] at h
      cases h
    | error e end' =>
      rw [hm] at h
      cases h
      rw [like.error calls hm]

def State.viewed (s : State σ) (view : σ → Nat → τ) : State τ :=
  ⟨s.walk, s.forest, view s.data s.walk.found⟩

def Result.viewed (r : Result σ) (view : σ → Nat → τ) (calls : Nat) : Result τ :=
  ⟨r.outcome, r.forest, view r.data calls⟩

/-- The data of a search, on its way or at its end. -/
def dataOf : Progress (State σ) (Result σ) → σ
  | .more s => s.data
  | .done r => r.data

theorem Tries.viewed {seq : SeqName} {position : Nat} {rest : List Task}
    (h : Tries { options with limit := some k } s seq position rest) (view : σ → Nat → τ) :
    Tries { options with limit := none } (s.viewed view) seq position rest :=
  ⟨h.agenda, h.there, h.lt, h.tried⟩

theorem below_limit_iff {n : Nat} : (some k).any (· ≤ n) = false ↔ n < k := by
  simp

/-- A step below the limit is one without a limit too. -/
theorem Move.viewed (like : Follows stops receiver other view)
    (early : ∀ calls, calls < k → stops calls = false)
    (h : Move p { options with limit := some k } receiver s s') :
    Move p { options with limit := none } other (s.viewed view) (s'.viewed view) := by
  cases h with
  | seen agenda there => exact .seen agenda there
  | entered agenda new there => exact .entered agenda new there
  | scanned agenda there past => exact .scanned agenda there past
  | missed tries none => exact .missed (tries.viewed view) none
  | received tries found given below length =>
    have answer := like.ok s.walk.found given
    rw [early _ (below_limit_iff.1 below)] at answer
    exact .received (tries.viewed view) found answer rfl length
  | nested agenda there child => exact .nested agenda there child
  | passed agenda there child => exact .passed agenda there child
  | ended agenda there none => exact .ended agenda there none

/-- No step that goes on reaches the limit. -/
theorem Move.found_lt (hs : s.walk.found < k)
    (h : Move p { options with limit := some k } receiver s s') : s'.walk.found < k := by
  cases h with
  | received tries found given below length => exact below_limit_iff.1 below
  | seen | entered | scanned | missed | nested | passed | ended => exact hs

/-- A search ends alike with a limit and without one, unless only the limit ends it. Then the step
without a limit comes to the same data. -/
theorem Halt.viewed (like : Follows stops receiver other view)
    (early : ∀ calls, calls < k → stops calls = false) (hs : s.walk.found < k)
    (h : Halt p { options with limit := some k } receiver s r) :
    (∃ calls, Halt p { options with limit := none } other (s.viewed view) (r.viewed view calls)) ∨
      (∃ counts, r.outcome = .ok counts ∧ counts.found = k) ∧ stops k = false ∧
        dataOf (step p { options with limit := none } other (s.viewed view)) = view r.data k := by
  cases h with
  | finished agenda => exact .inl ⟨_, .finished agenda⟩
  | missing agenda new missing => exact .inl ⟨_, .missing agenda new missing⟩
  | unscanned agenda length => exact .inl ⟨_, .unscanned agenda length⟩
  | failed tries failed => exact .inl ⟨_, .failed (tries.viewed view) failed⟩
  | refused tries found given =>
    exact .inl ⟨_, .refused (tries.viewed view) found (like.error _ given)⟩
  | lost tries found given below length =>
    have answer := like.ok s.walk.found given
    rw [early _ (below_limit_iff.1 below)] at answer
    exact .inl ⟨_, .lost (tries.viewed view) found answer rfl length⟩
  | undescended agenda child => exact .inl ⟨_, .undescended agenda child⟩
  | @stopped seq position rest machine b next m data tries found given stop =>
    have answer := like.ok s.walk.found given
    by_cases hstop : (if stops (s.walk.found + 1) then Next.stop else next) = .stop
    · exact .inl ⟨_, .stopped (tries.viewed view) found answer (.inl hstop)⟩
    · -- Neither receiver stops the search, so the limit is what ends it.
      have hnext : next ≠ .stop := fun e => hstop (by rw [e, ite_self])
      have hstops : stops (s.walk.found + 1) = false :=
        Bool.eq_false_iff.2 fun e => hstop (if_pos e)
      have hlimit : s.walk.found + 1 = k := by
        have := of_decide_eq_true (stop.resolve_left hnext)
        omega
      obtain rfl : next = .proceed := by
        cases next with
        | proceed => rfl
        | stop => exact absurd rfl hnext
      rw [hstops, if_neg Bool.false_ne_true] at answer
      refine .inr ⟨⟨_, rfl, hlimit⟩, hlimit ▸ hstops, ?_⟩
      rw [← hlimit]
      cases hl : m.forest.length b.whole.seq with
      | error e =>
        rw [step_eq_done_iff.2 (.lost (tries.viewed view) found answer rfl hl)]
        rfl
      | ok after =>
        rw [step_eq_more_iff.2 (.received (tries.viewed view) found answer rfl hl)]
        rfl

section Stopping

variable (p : Program) (options : Options) (level : Nat) (f : Forest) (data : σ)

/-- A step of the search that is viewed. -/
def viewing (view : σ → Nat → τ) (calls : Nat) :
    Progress (State σ) (Result σ) → Progress (State τ) (Result τ)
  | .more s => .more (s.viewed view)
  | .done r => .done (r.viewed view calls)

/-- Steps with a limit are steps without one, if the other receiver stops where the limit does. -/
theorem steps_viewed (like : Follows stops receiver other view)
    (early : ∀ calls, calls < k → stops calls = false) (last : stops k = true) (n : Nat)
    (hs : s.walk.found < k) :
    ∃ calls, Progress.steps (step p { options with limit := none } other) n (s.viewed view) =
      viewing view calls
        (Progress.steps (step p { options with limit := some k } receiver) n s) := by
  induction n generalizing s with
  | zero => exact ⟨0, rfl⟩
  | succ n ih =>
    cases hstep : step p { options with limit := some k } receiver s with
    | more s' =>
      have move := step_eq_more_iff.1 hstep
      rw [Progress.steps_succ_more hstep,
        Progress.steps_succ_more (step_eq_more_iff.2 (move.viewed like early))]
      exact ih (move.found_lt hs)
    | done r =>
      rcases (step_eq_done_iff.1 hstep).viewed like early hs with ⟨calls, halt⟩ | ⟨-, hnot, -⟩
      · refine ⟨calls, ?_⟩
        rw [Progress.steps_succ_done hstep, Progress.steps_succ_done (step_eq_done_iff.2 halt)]
        rfl
      · rw [last] at hnot
        cases hnot

theorem search_viewed (like : Follows stops receiver other view)
    (early : ∀ calls, calls < k → stops calls = false) (last : stops k = true) (hk : 1 ≤ k) :
    ∃ calls, p.search { options with limit := none } level other f (view data 0) =
      (p.search { options with limit := some k } level receiver f data).viewed view calls := by
  have hlimit : ¬some k = some 0 := fun e => Nat.ne_of_gt hk (Option.some.inj e)
  have hnone : ¬(none : Option Nat) = some 0 := nofun
  unfold Program.search
  rw [if_neg hnone, if_neg hlimit, Progress.run_eq_steps, Progress.run_eq_steps]
  have first : (start f data).walk.found < k := hk
  obtain ⟨calls, hsteps⟩ := steps_viewed p options like early last (Nat.pow 2 level) first
  have hstart : (start f data).viewed view = start f (view data 0) := rfl
  rw [← hstart, hsteps]
  cases Progress.steps (step p { options with limit := some k } receiver) (Nat.pow 2 level)
      (start f data) with
  | more s => exact ⟨s.walk.found, rfl⟩
  | done r => exact ⟨calls, rfl⟩

end Stopping

section Given

variable (p options receiver)

/-- A step notes one match at most, behind those noted so far. -/
theorem noted_step (t : State (σ × List Match)) :
    ∃ new, (dataOf (step p options (recording receiver) t)).2 = t.data.2 ++ new ∧
      new.length ≤ 1 := by
  cases hstep : step p options (recording receiver) t with
  | more t' =>
    cases step_eq_more_iff.1 hstep with
    | received tries found gave below length => exact ⟨_, noted_ok gave, Nat.le_refl 1⟩
    | seen | entered | scanned | missed | nested | passed | ended =>
      exact ⟨[], (List.append_nil _).symm, Nat.zero_le 1⟩
  | done r =>
    cases step_eq_done_iff.1 hstep with
    | refused tries found gave => exact ⟨_, noted_error gave, Nat.le_refl 1⟩
    | stopped tries found gave stop => exact ⟨_, noted_ok gave, Nat.le_refl 1⟩
    | lost tries found gave below length => exact ⟨_, noted_ok gave, Nat.le_refl 1⟩
    | finished | missing | unscanned | failed | undescended =>
      exact ⟨[], (List.append_nil _).symm, Nat.zero_le 1⟩

/-- The matches noted so far stay the first ones. -/
theorem noted_prefix (n : Nat) (t : State (σ × List Match)) :
    t.data.2 <+: (dataOf (Progress.steps (step p options (recording receiver)) n t)).2 := by
  induction n generalizing t with
  | zero => exact List.prefix_rfl
  | succ n ih =>
    obtain ⟨new, hnew, -⟩ := noted_step p options receiver t
    have hfirst : t.data.2 <+: (dataOf (step p options (recording receiver) t)).2 :=
      hnew ▸ List.prefix_append _ _
    cases hstep : step p options (recording receiver) t with
    | more t' =>
      rw [Progress.steps_succ_more hstep]
      rw [hstep] at hfirst
      exact hfirst.trans (ih t')
    | done r =>
      rw [Progress.steps_succ_done hstep]
      rwa [hstep] at hfirst

/-- So do those noted after the first step. -/
theorem noted_prefix_of_step (n : Nat) (t : State (σ × List Match)) :
    (dataOf (step p options (recording receiver) t)).2 <+:
      (dataOf (Progress.steps (step p options (recording receiver)) (n + 1) t)).2 := by
  cases hstep : step p options (recording receiver) t with
  | more t' =>
    rw [Progress.steps_succ_more hstep]
    exact noted_prefix p options receiver n t'
  | done r =>
    rw [Progress.steps_succ_done hstep]

/-- The matches noted with a limit are the first of those noted without one. -/
theorem steps_noted_take (n : Nat) {t : State (σ × List Match)}
    (ht : Numbered t.data.2 t.walk.found) (hk : t.walk.found < k) :
    (dataOf (Progress.steps (step p { options with limit := some k } (recording receiver)) n t)).2 =
      (dataOf (Progress.steps (step p { options with limit := none } (recording receiver)) n
        t)).2.take k := by
  have early : ∀ calls, calls < k → (fun _ => false) calls = false := fun _ _ => rfl
  have like := follows_self (recording receiver)
  induction n generalizing t with
  | zero =>
    have hlength : t.data.2.length ≤ k := ht.length.symm ▸ Nat.le_of_lt hk
    exact (List.take_of_length_le hlength).symm
  | succ n ih =>
    cases hstep : step p { options with limit := some k } (recording receiver) t with
    | more t' =>
      have move := step_eq_more_iff.1 hstep
      have hmore : step p { options with limit := none } (recording receiver) t = .more t' :=
        step_eq_more_iff.2 (move.viewed like early)
      rw [Progress.steps_succ_more hstep, Progress.steps_succ_more hmore]
      exact ih (move.numbered ht) (move.found_lt hk)
    | done r =>
      have halt := step_eq_done_iff.1 hstep
      rw [Progress.steps_succ_done hstep]
      rcases halt.viewed like early hk with ⟨calls, halt'⟩ | ⟨⟨counts, hr, hcounts⟩, -, hdata⟩
      · have hdone : step p { options with limit := none } (recording receiver) t = .done r :=
          step_eq_done_iff.2 halt'
        obtain ⟨new, hnew, hone⟩ := noted_step p { options with limit := none } receiver t
        have hlength : r.data.2.length ≤ k := by
          have hfound := ht.length
          rw [hdone] at hnew
          rw [show r.data.2 = _ from hnew, List.length_append]
          omega
        rw [Progress.steps_succ_done hdone]
        exact (List.take_of_length_le hlength).symm
      · -- Without the limit the search may go on, behind the matches noted so far.
        have hlength : r.data.2.length = k := (halt.length_noted ht hr).trans hcounts
        have hfirst := noted_prefix_of_step p { options with limit := none } receiver n t
        rw [show dataOf (step p _ (recording receiver) t) = r.data from hdata] at hfirst
        rw [← hlength]
        exact List.prefix_iff_eq_take.1 hfirst

variable (level : Nat) (f : Forest) (data : σ)

theorem given_eq (hlimit : options.limit ≠ some 0) : p.given options level receiver f data =
    (dataOf (Progress.steps (step p options (recording receiver)) (Nat.pow 2 level)
      (start f (data, [])))).2 := by
  unfold Program.given Program.search
  rw [if_neg hlimit, Progress.run_eq_steps]
  cases Progress.steps (step p options (recording receiver)) (Nat.pow 2 level)
    (start f (data, [])) <;> rfl

end Given

/-- For every program, forest and receiver, a search that stops after `k` matches, and at least one,
ends as the search without a limit does whose receiver stops it at call number `k`: with the same
counts or the same error, with the same forest and the same data, and after it was handed the same
matches. These are the first `k` matches, or all of them if there are fewer, of the search without a
limit whose receiver does not stop it. -/
theorem limit_eq_stopping (p : Program) (options : Options) (receiver : Receiver σ) (level : Nat)
    (f : Forest) (data : σ) {k : Nat} (hk : 1 ≤ k) :
    let limited := p.search { options with limit := some k } level receiver f data
    let stopped := p.search { options with limit := none } level (stoppingAt k receiver) f (data, 0)
    let given := p.given { options with limit := some k } level receiver f data
    (stopped.outcome = limited.outcome ∧ stopped.forest = limited.forest ∧
        stopped.data.1 = limited.data) ∧
      p.given { options with limit := none } level (stoppingAt k receiver) f (data, 0) = given ∧
      given = (p.given { options with limit := none } level receiver f data).take k ∧
      given.length ≤ k := by
  intro limited stopped given
  have early : ∀ calls, calls < k → decide (calls = k) = false :=
    fun calls h => decide_eq_false (Nat.ne_of_lt h)
  have last : decide (k = k) = true := decide_eq_true rfl
  have like := follows_stoppingAt k receiver
  obtain ⟨calls, hstopped⟩ := search_viewed p options level f data like early last hk
  obtain ⟨calls', hgiven⟩ := search_viewed p options level f (data, []) like.recording early last hk
  have hlimit : some k ≠ some 0 := fun e => Nat.ne_of_gt hk (Option.some.inj e)
  have hnone : (none : Option Nat) ≠ some 0 := nofun
  have htake : given = (p.given { options with limit := none } level receiver f data).take k := by
    rw [given_eq p { options with limit := none } receiver level f data hnone]
    exact (given_eq p _ receiver level f data hlimit).trans
      (steps_noted_take p options receiver (Nat.pow 2 level) rfl hk)
  refine ⟨?_, ?_, htake, htake ▸ List.length_take_le k _⟩
  · rw [show stopped = _ from hstopped]
    exact ⟨rfl, rfl, rfl⟩
  · rw [Program.given, hgiven]
    rfl

/-- Two of three children are taken out, by a limit of two matches as by a receiver that stops then.
-/
theorem limit_eq_stopping_emptied :
    let p := Program.ofItems [.named "x" [.any]]
    let f := Forest.ofValue (.seq [.scalar (.int 1), .scalar (.int 2), .scalar (.int 3)])
    let receiver : Receiver Unit := making fun m => [.replace m.whole []]
    let limited := p.search { limit := some 2 } 5 receiver f ()
    let stopped := p.search { limit := none } 5 (stoppingAt 2 receiver) f ((), 0)
    let given := p.given { limit := some 2 } 5 receiver f ()
    let all := p.given { limit := none } 5 receiver f ()
    1 ≤ 2 ∧ limited.forest = .ofValue (.seq [.scalar (.int 3)]) ∧
      (stopped.outcome = limited.outcome ∧ stopped.forest = limited.forest ∧
        stopped.data.1 = limited.data) ∧
      given = all.take 2 ∧ given.length = 2 ∧ all.length = 3 := by
  intro p f receiver limited stopped given all
  obtain ⟨hsame, -, htake, -⟩ := limit_eq_stopping p {} receiver 5 f () (by decide : 1 ≤ 2)
  have hall : all.length = 3 := by decide +kernel
  refine ⟨by decide, by decide +kernel, hsame, htake, ?_, hall⟩
  rw [show given = all.take 2 from htake, List.length_take, hall]
  rfl

end NestedRegex.Search
