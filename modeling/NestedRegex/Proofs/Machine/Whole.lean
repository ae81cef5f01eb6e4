import NestedRegex.Proofs.Machine.Branches

namespace NestedRegex.Machine

variable {f : Forest} {p : Program} {m m' : Machine} {b : Captures}

/-- The machine has what a run keeps of the other one: where it began, and the number of slots. -/
structure SameRun (m m' : Machine) : Prop where
  home : m'.home = m.home
  first : m'.first = m.first
  slots : m'.bindings.length = m.bindings.length

theorem SameRun.refl (m : Machine) : SameRun m m :=
  ⟨rfl, rfl, rfl⟩

theorem SameRun.trans {n : Machine} (h : SameRun m m') (hn : SameRun m' n) : SameRun m n :=
  ⟨hn.home.trans h.home, hn.first.trans h.first, hn.slots.trans h.slots⟩

theorem sameRun_of_obey {i : Instr} (hm : m.obey f p i = .ok (some m')) : SameRun m m' := by
  cases obeyed_of_obey hm with
  | scalar | any | enter | exit | atEnd | openSlot | backRef | check | split | jump =>
    exact ⟨rfl, rfl, rfl⟩
  | closeSlot => exact ⟨rfl, rfl, List.length_set⟩

theorem sameRun_of_unwind {trail : List TrailMark} (hm : m.unwind trail = some m') :
    SameRun m m' := by
  induction trail generalizing m with
  | nil => cases hm
  | cons mark trail ih =>
    cases mark with
    | choice address seq position =>
      obtain rfl := Option.some.inj hm
      exact ⟨rfl, rfl, rfl⟩
    | bound slot previous =>
      have undone : SameRun m { m with bindings := m.bindings.set slot.index previous } :=
        ⟨rfl, rfl, List.length_set⟩
      exact undone.trans (ih hm)
    | started slot previous =>
      have undone : SameRun m { m with starts := m.starts.set slot.index previous } :=
        ⟨rfl, rfl, rfl⟩
      exact undone.trans (ih hm)
    | entered =>
      have undone : SameRun m { m with outers := m.outers.tail } := ⟨rfl, rfl, rfl⟩
      exact undone.trans (ih hm)
    | left outer =>
      have undone : SameRun m { m with outers := outer :: m.outers } := ⟨rfl, rfl, rfl⟩
      exact undone.trans (ih hm)

theorem sameRun_of_step (hm : Machine.step f p m = .more m') : SameRun m m' := by
  have counted : SameRun m { m with steps := m.steps + 1 } := ⟨rfl, rfl, rfl⟩
  cases Machine.stepped_of_step hm with
  | onward code obeyed => exact counted.trans (sameRun_of_obey obeyed)
  | back code stuck went => exact counted.trans (sameRun_of_unwind went)

/-- A run that ends with a match has come to accept. -/
theorem accepted_of_step (hm : Machine.step f p m = .done (.ok (some b, m'))) :
    b = m.accepted := by
  unfold Machine.step at hm
  dsimp only at hm
  split at hm
  · cases hm
  · obtain ⟨hb, -⟩ := Prod.mk.inj (Except.ok.inj (Progress.done.inj hm))
    exact (Option.some.inj hb).symm
  · split at hm
    · cases hm
    · cases hm
    · split at hm <;> cases hm

variable {seq : SeqName} {position : Nat}

/-- What is found is what the run has come to accept. -/
theorem accepted_of_run (h : m.run f p seq position = .ok (some b, m')) :
    ∃ last, SameRun (m.start p seq position) last ∧ b = last.accepted := by
  unfold Machine.run Machine.finish at h
  rw [Progress.finish_eq_steps] at h
  split at h
  · next outcome hdone =>
    obtain ⟨n, last, hn, hlast⟩ := Progress.steps_done_last hdone
    have same := Progress.steps_keep (P := SameRun (m.start p seq position))
      (fun same hstep => same.trans (sameRun_of_step hstep)) (.refl _) hn
    exact ⟨last, same, accepted_of_step (h ▸ hlast)⟩
  · cases h

/-- The whole of a match begins where the machine was sent. -/
theorem whole_of_run (h : m.run f p seq position = .ok (some b, m')) :
    b.whole.seq = seq ∧ b.whole.start = position := by
  obtain ⟨last, same, rfl⟩ := accepted_of_run h
  exact ⟨same.home, same.first⟩

/-- A match has a place for each name of its program, bound or not. -/
theorem slots_of_run (h : m.run f p seq position = .ok (some b, m')) :
    b.slots.length = p.captureCount := by
  obtain ⟨last, same, rfl⟩ := accepted_of_run h
  exact same.slots.trans List.length_replicate

end NestedRegex.Machine
