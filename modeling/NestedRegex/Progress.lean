namespace NestedRegex

/-- What a step leads to: a state to go on from, or a result. -/
inductive Progress (σ ρ : Type) where
  | more (state : σ)
  | done (result : ρ)

namespace Progress

/-- Take steps until done, at most `2 ^ level` of them. -/
def run (step : σ → Progress σ ρ) : Nat → σ → Progress σ ρ
  | 0, s => step s
  | level + 1, s =>
    match run step level s with
    | .more s => run step level s
    | .done r => .done r

/-- A level of steps that no run in practice uses up. -/
def usualLevel : Nat :=
  64

/-- Take steps until done. The level of steps that is enough is not worked out before the usual
level is used up. -/
def finish (step : σ → Progress σ ρ) (level : Unit → Nat) (s : σ) : Progress σ ρ :=
  match run step usualLevel s with
  | .more s => run step (level ()) s
  | .done r => .done r

/-- Take a number of steps, or fewer if done before. -/
def steps (step : σ → Progress σ ρ) : Nat → σ → Progress σ ρ
  | 0, s => .more s
  | n + 1, s =>
    match step s with
    | .more s => steps step n s
    | .done r => .done r

theorem steps_add (step : σ → Progress σ ρ) (m n : Nat) (s : σ) :
    steps step (m + n) s =
      match steps step m s with
      | .more s => steps step n s
      | .done r => .done r := by
  induction m generalizing s with
  | zero => simp [steps]
  | succ m ih =>
    rw [Nat.succ_add]
    simp only [steps]
    split
    · exact ih _
    · rfl

theorem run_eq_steps (step : σ → Progress σ ρ) (level : Nat) (s : σ) :
    run step level s = steps step (Nat.pow 2 level) s := by
  induction level generalizing s with
  | zero =>
    change step s = steps step 1 s
    simp only [steps]
    split <;> simp_all
  | succ level ih =>
    have h : Nat.pow 2 (level + 1) = Nat.pow 2 level + Nat.pow 2 level := Nat.mul_two _
    rw [h, steps_add, run, ih]
    split <;> simp_all

theorem finish_eq_steps (step : σ → Progress σ ρ) (level : Unit → Nat) (s : σ) :
    finish step level s = steps step (Nat.pow 2 usualLevel + Nat.pow 2 (level ())) s := by
  unfold finish
  generalize usualLevel = usual
  rw [steps_add, run_eq_steps]
  split <;> simp_all [run_eq_steps]

end Progress

end NestedRegex
