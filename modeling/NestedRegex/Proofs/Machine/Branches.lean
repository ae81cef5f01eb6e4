import Mathlib.Algebra.GroupWithZero.Nat
import NestedRegex.Machine.Run
import NestedRegex.Proofs.Machine.Obey
import NestedRegex.Proofs.Progress

namespace NestedRegex

namespace Machine

/-- All that the branches from a machine onwards find, in the order of the search, where no branch
has more instructions than `depth`. -/
inductive Explores (f : Forest) (p : Program) : Machine → Choices Captures → Nat → Prop
  | accept {m depth} (code : p.code[m.address]? = some .accept) :
    Explores f p m [.ok m.accepted] (depth + 1)
  | fail {m i depth} (code : p.code[m.address]? = some i) (other : i ≠ .accept)
    (obeyed : m.obey f p i = .ok none) : Explores f p m [] (depth + 1)
  | error {m i e depth} (code : p.code[m.address]? = some i) (other : i ≠ .accept)
    (obeyed : m.obey f p i = .error e) : Explores f p m [.error e] (depth + 1)
  | next {m i m' cs depth} (code : p.code[m.address]? = some i)
    (other : ∀ first second, i ≠ .split first second) (obeyed : m.obey f p i = .ok (some m'))
    (rest : Explores f p m' cs depth) : Explores f p m cs (depth + 1)
  | split {m first second cs ds depth} (code : p.code[m.address]? = some (.split first second))
    (preferred : Explores f p { m with address := first } cs depth)
    (otherwise : Explores f p { m with address := second } ds depth) :
    Explores f p m (cs ++ ds) (depth + 1)

variable {f : Forest} {p : Program} {m m' n : Machine} {i : Instr} {cs : Choices Captures}
  {depth : Nat}

theorem Explores.mono (h : Explores f p m cs depth) {deeper : Nat} (hd : depth ≤ deeper) :
    Explores f p m cs deeper := by
  induction h generalizing deeper with
  | accept code =>
    obtain ⟨d, rfl⟩ : ∃ d, deeper = d + 1 := ⟨deeper - 1, by omega⟩
    exact .accept code
  | fail code other obeyed =>
    obtain ⟨d, rfl⟩ : ∃ d, deeper = d + 1 := ⟨deeper - 1, by omega⟩
    exact .fail code other obeyed
  | error code other obeyed =>
    obtain ⟨d, rfl⟩ : ∃ d, deeper = d + 1 := ⟨deeper - 1, by omega⟩
    exact .error code other obeyed
  | next code other obeyed rest ih =>
    obtain ⟨d, rfl⟩ : ∃ d, deeper = d + 1 := ⟨deeper - 1, by omega⟩
    exact .next code other obeyed (ih (by omega))
  | split code preferred otherwise ih ih' =>
    obtain ⟨d, rfl⟩ : ∃ d, deeper = d + 1 := ⟨deeper - 1, by omega⟩
    exact .split code (ih (by omega)) (ih' (by omega))

/-- Machines that differ only in their past do the same. -/
theorem obey_congr (hb : m'.bare = m.bare) (i : Instr) :
    m'.obey f p i = (m.bare.obey f p i).map (Option.map (since · m')) := by
  rw [obey_eq_since, hb]

theorem obey_none_congr (hb : m'.bare = m.bare) (h : m.obey f p i = .ok none) :
    m'.obey f p i = .ok none := by
  rw [obey_congr hb]
  rw [obey_eq_since] at h
  cases hm : m.bare.obey f p i with
  | error e => rw [hm] at h; cases h
  | ok o =>
    cases o with
    | none => rfl
    | some n => rw [hm] at h; cases h

theorem obey_error_congr {e : Failure TestError} (hb : m'.bare = m.bare)
    (h : m.obey f p i = .error e) : m'.obey f p i = .error e := by
  rw [obey_congr hb]
  rw [obey_eq_since] at h
  cases hm : m.bare.obey f p i with
  | error e' => rw [hm] at h; exact h
  | ok o => rw [hm] at h; cases h

theorem obey_some_congr (hb : m'.bare = m.bare) (h : m.obey f p i = .ok (some n)) :
    ∃ n', m'.obey f p i = .ok (some n') ∧ n'.bare = n.bare := by
  rw [obey_congr hb]
  rw [obey_eq_since] at h
  cases hm : m.bare.obey f p i with
  | error e => rw [hm] at h; cases h
  | ok o =>
    cases o with
    | none => rw [hm] at h; cases h
    | some k =>
      rw [hm] at h
      obtain rfl := Option.some.inj (Except.ok.inj h)
      exact ⟨_, rfl, rfl⟩

/-- Going back from a machine, with some count of steps. -/
def Returns (f : Forest) (p : Program) (m : Machine) (count : Nat) : Prop :=
  ∃ steps, match { m with steps }.backtrack with
    | some m' => Progress.steps (step f p) count m = .more m'
    | none => ∃ last, Progress.steps (step f p) count m = .done (.ok (none, last))

/-- The machine comes to the first finding after some steps, or goes back if there is none. -/
def Finds (f : Forest) (p : Program) (m : Machine) (count : Nat) : Choices Captures → Prop
  | [] => Returns f p m count
  | .ok b :: _ => ∃ last, Progress.steps (step f p) count m = .done (.ok (some b, last))
  | .error e :: _ => Progress.steps (step f p) count m = .done (.error e)

/-- A step to a machine that goes back to the same place. -/
theorem Finds.step {count : Nat} (hs : step f p m = .more m')
    (hb : ∀ steps, { m' with steps }.backtrack = { m with steps }.backtrack)
    (h : Finds f p m' count cs) : Finds f p m (count + 1) cs := by
  match cs, h with
  | [], ⟨steps, h⟩ =>
    refine ⟨steps, ?_⟩
    rw [← hb, Progress.steps_succ_more hs]
    exact h
  | .ok b :: _, ⟨last, h⟩ => exact ⟨last, (Progress.steps_succ_more hs).trans h⟩
  | .error e :: _, h => exact (Progress.steps_succ_more hs).trans h

theorem backtrack_steps (m : Machine) (steps : Nat) :
    { m with steps }.backtrack = m.backtrack.map fun m => { m with steps } :=
  unwind_steps m steps m.trail

theorem backtrack_recount {k : Nat} (h : m'.backtrack = { m with steps := k }.backtrack)
    (steps : Nat) : { m' with steps }.backtrack = { m with steps }.backtrack := by
  rw [backtrack_steps m' steps, h, backtrack_steps m k, backtrack_steps m steps, Option.map_map]
  rfl

/-- A run comes to the first of the findings of its branches. -/
theorem Explores.finds (h : Explores f p m cs depth) (hb : m'.bare = m.bare) :
    ∃ count, count < 2 ^ depth ∧ Finds f p m' count cs := by
  have pos : ∀ d, 0 < 2 ^ d := fun d => Nat.two_pow_pos d
  induction h generalizing m' with
  | @accept m d code =>
    have hcode : p.code[m'.address]? = some .accept := (congrArg address hb) ▸ code
    have hs : step f p m' = .done (.ok (some m'.accepted, { m' with steps := m'.steps + 1 })) := by
      simp only [step, hcode]
      rfl
    have he : accepted m'.bare = accepted m.bare := congrArg accepted hb
    change accepted m' = accepted m at he
    rw [he] at hs
    exact ⟨1, Nat.one_lt_two_pow (Nat.succ_ne_zero d), _, Progress.steps_succ_done hs⟩
  | @fail m i d code other obeyed =>
    have hcode : p.code[m'.address]? = some i := (congrArg address hb) ▸ code
    have ho : obey f p { m' with steps := m'.steps + 1 } i = .ok none :=
      obey_none_congr hb obeyed
    refine ⟨1, Nat.one_lt_two_pow (Nat.succ_ne_zero d), m'.steps + 1, ?_⟩
    cases hq : { m' with steps := m'.steps + 1 }.backtrack with
    | none =>
      have hs : step f p m' = .done (.ok (none, { m' with steps := m'.steps + 1 })) := by
        simp only [step, hcode, ho, hq]
      exact ⟨_, Progress.steps_succ_done hs⟩
    | some k =>
      have hs : step f p m' = .more k := by simp only [step, hcode, ho, hq]
      exact (Progress.steps_succ_more hs).trans rfl
  | @error m i e d code other obeyed =>
    have hcode : p.code[m'.address]? = some i := (congrArg address hb) ▸ code
    have ho : obey f p { m' with steps := m'.steps + 1 } i = .error e :=
      obey_error_congr hb obeyed
    exact ⟨1, Nat.one_lt_two_pow (Nat.succ_ne_zero d),
      Progress.steps_succ_done (by simp only [step, hcode, ho])⟩
  | @next m i n cs d code other obeyed rest ih =>
    have hcode : p.code[m'.address]? = some i := (congrArg address hb) ▸ code
    obtain ⟨n', ho, hn⟩ : ∃ n', obey f p { m' with steps := m'.steps + 1 } i = .ok (some n') ∧
        n'.bare = n.bare := obey_some_congr hb obeyed
    obtain ⟨count, hlt, hf⟩ := ih hn
    have going : i ≠ .accept := by
      rintro rfl
      cases obeyed
    have hs : step f p m' = .more n' := by
      simp only [step, hcode, ho]
    refine ⟨count + 1, by rw [Nat.pow_succ]; have := pos d; omega, hf.step hs fun steps => ?_⟩
    exact backtrack_recount (backtrack_obey ho other) steps
  | @split m first second cs ds d code preferred otherwise ih ih' =>
    have hcode : p.code[m'.address]? = some (.split first second) := (congrArg address hb) ▸ code
    let left : Machine := { m' with
      address := first, trail := .choice second m'.seq m'.position :: m'.trail
      steps := m'.steps + 1 }
    have hs : step f p m' = .more left := by simp only [step, hcode, obey]; rfl
    have hl : left.bare = bare { m with address := first } :=
      congrArg (fun b : Machine => { b with address := first }) hb
    obtain ⟨count, hlt, hf⟩ := ih hl
    cases cs with
    | cons c cs =>
      refine ⟨count + 1, by rw [Nat.pow_succ]; have := pos d; omega, ?_⟩
      cases c with
      | ok b =>
        obtain ⟨last, hf⟩ := hf
        exact ⟨last, (Progress.steps_succ_more hs).trans hf⟩
      | error e => exact (Progress.steps_succ_more hs).trans hf
    | nil =>
      obtain ⟨steps, hf⟩ := hf
      -- The preferred branch failed, so the machine stands where the choice was made.
      let right : Machine := { m' with address := second, steps }
      have hr : right.bare = bare { m with address := second } :=
        congrArg (fun b : Machine => { b with address := second }) hb
      obtain ⟨count', hlt', hf'⟩ := ih' hr
      have hgo : Progress.steps (step f p) (count + 1) m' = .more right :=
        (Progress.steps_succ_more hs).trans hf
      refine ⟨count + 1 + count', by rw [Nat.pow_succ]; omega, ?_⟩
      cases ds with
      | nil =>
        obtain ⟨steps', hf'⟩ := hf'
        refine ⟨steps', ?_⟩
        have hback : { right with steps := steps' }.backtrack =
            { m' with steps := steps' }.backtrack :=
          unwind_stand { m' with steps := steps' } _ _ _ _ _
        rw [← hback, Progress.steps_add_more hgo]
        exact hf'
      | cons c ds =>
        cases c with
        | ok b =>
          obtain ⟨last, hf'⟩ := hf'
          exact ⟨last, (Progress.steps_add_more hgo).trans hf'⟩
        | error e => exact (Progress.steps_add_more hgo).trans hf'

/-- A run from a start without choices to go back to ends with the first finding, if the branches
are no longer than the run allows for. -/
theorem Explores.finish (h : Explores f p m cs depth) (ht : m.trail = [])
    (hd : depth ≤ fullLevel f p) : (m.finish f p).map Prod.fst = cs.first := by
  obtain ⟨count, hlt, hf⟩ : ∃ count, count < 2 ^ depth ∧ Finds f p m count cs := h.finds rfl
  have hle : count ≤ Nat.pow 2 Progress.usualLevel + Nat.pow 2 (fullLevel f p) := by
    have hp : 2 ^ depth ≤ 2 ^ fullLevel f p := Nat.pow_le_pow_right (by omega) hd
    exact Nat.le_trans (Nat.le_of_lt hlt) (Nat.le_trans hp (Nat.le_add_left _ _))
  unfold Machine.finish
  rw [Progress.finish_eq_steps]
  match cs, hf with
  | [], ⟨steps, hf⟩ =>
    simp only [backtrack, ht, unwind] at hf
    obtain ⟨last, hf⟩ := hf
    rw [Progress.steps_done_mono hf hle]
    rfl
  | .ok b :: _, ⟨last, hf⟩ =>
    rw [Progress.steps_done_mono hf hle]
    rfl
  | .error e :: _, hf =>
    rw [Progress.steps_done_mono hf hle]
    rfl

end Machine

end NestedRegex
