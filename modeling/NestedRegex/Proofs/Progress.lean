import NestedRegex.Progress

namespace NestedRegex.Progress

variable {step : σ → Progress σ ρ} {s s' : σ} {r : ρ} {m n : Nat}

theorem steps_succ_more (h : step s = .more s') : steps step (n + 1) s = steps step n s' := by
  rw [steps, h]

theorem steps_succ_done (h : step s = .done r) : steps step (n + 1) s = .done r := by
  rw [steps, h]

theorem steps_add_more (h : steps step m s = .more s') :
    steps step (m + n) s = steps step n s' := by
  rw [steps_add, h]

/-- What is done stays done. -/
theorem steps_done_mono (h : steps step m s = .done r) (hn : m ≤ n) :
    steps step n s = .done r := by
  obtain ⟨k, rfl⟩ := Nat.le.dest hn
  rw [steps_add, h]

/-- The last of some steps. -/
theorem steps_succ_last (h : steps step (n + 1) s = .more s') :
    ∃ t, steps step n s = .more t ∧ step t = .more s' := by
  rw [steps_add] at h
  cases ht : steps step n s with
  | done r => rw [ht] at h; cases h
  | more t =>
    rw [ht] at h
    refine ⟨t, rfl, ?_⟩
    cases hs : step t with
    | done r => simp only [steps, hs] at h; cases h
    | more t' => simpa only [steps, hs] using h

/-- The step that ends a run. -/
theorem steps_done_last (h : steps step n s = .done r) :
    ∃ m t, steps step m s = .more t ∧ step t = .done r := by
  induction n generalizing s with
  | zero => cases h
  | succ n ih =>
    cases hs : step s with
    | done r' =>
      rw [steps_succ_done hs] at h
      exact ⟨0, s, rfl, hs.trans (congrArg _ (Progress.done.inj h))⟩
    | more s' =>
      rw [steps_succ_more hs] at h
      obtain ⟨m, t, ht, hd⟩ := ih h
      exact ⟨m + 1, t, (steps_succ_more hs).trans ht, hd⟩

/-- What every step keeps holds as long as the run goes on. -/
theorem steps_keep {P : σ → Prop} (more : ∀ {s s'}, P s → step s = .more s' → P s') (hs : P s)
    (h : steps step n s = .more s') : P s' := by
  induction n generalizing s with
  | zero =>
    obtain rfl := Progress.more.inj h
    exact hs
  | succ n ih =>
    cases hstep : step s with
    | done r =>
      rw [steps_succ_done hstep] at h
      cases h
    | more t =>
      rw [steps_succ_more hstep] at h
      exact ih (more hs hstep) h

/-- What every step keeps brings about what the last step makes of it. -/
theorem steps_end {P : σ → Prop} {Q : ρ → Prop} (more : ∀ {s s'}, P s → step s = .more s' → P s')
    (done : ∀ {s r}, P s → step s = .done r → Q r) (hs : P s) (h : steps step n s = .done r) :
    Q r := by
  obtain ⟨m, t, ht, hdone⟩ := steps_done_last h
  exact done (steps_keep more hs ht) hdone

/-- Steps that make something smaller come to an end. -/
theorem steps_ends {size : σ → Nat} (less : ∀ {s s'}, step s = .more s' → size s' < size s)
    (s : σ) : ∃ r, steps step (size s + 1) s = .done r := by
  suffices h : ∀ n s, size s < n → ∃ r, steps step n s = .done r from h _ s (Nat.lt_succ_self _)
  intro n
  induction n with
  | zero => exact fun s hs => absurd hs (Nat.not_lt_zero _)
  | succ n ih =>
    intro s hs
    cases hstep : step s with
    | done r => exact ⟨r, steps_succ_done hstep⟩
    | more s' =>
      rw [steps_succ_more hstep]
      exact ih s' (Nat.lt_of_lt_of_le (less hstep) (Nat.lt_succ_iff.1 hs))

end NestedRegex.Progress
