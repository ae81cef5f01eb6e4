import NestedRegex.Proofs.Machine.Branches

namespace NestedRegex.Machine

/-- After `k` steps of a run the machine `chooser` made a choice with `second` as its other side,
and the choice has been on the trail since, up to `count` steps. -/
structure Chosen (f : Forest) (p : Program) (s : Machine) (k count : Nat) (chooser : Machine)
    (second : Nat) : Prop where
  made : Progress.steps (step f p) k s = .more chooser
  code : ∃ first, p.code[chooser.address]? = some (.split first second)
  stays : ∀ j n, k < j → j ≤ count → Progress.steps (step f p) j s = .more n →
    .choice second chooser.seq chooser.position :: chooser.trail <:+ n.trail

variable {f : Forest} {p : Program} {m m' s last back chooser chooser' : Machine} {i : Instr}
  {k k' count second second' : Nat} {seq : SeqName} {position : Nat}

/-- Obeying takes nothing off the trail. -/
theorem trail_suffix_of_obey (h : m.obey f p i = .ok (some m')) : m.trail <:+ m'.trail := by
  cases obeyed_of_obey h with
  | scalar | any | atEnd | backRef | check | jump => exact List.suffix_refl _
  | enter | exit | openSlot | closeSlot | split => exact List.suffix_cons _ _

namespace Chosen

/-- The choice just made. -/
theorem now {first : Nat} (made : Progress.steps (step f p) k s = .more chooser)
    (code : p.code[chooser.address]? = some (.split first second))
    (hs : Progress.steps (step f p) (k + 1) s = .more last)
    (mark : last.trail = .choice second chooser.seq chooser.position :: chooser.trail) :
    Chosen f p s k (k + 1) chooser second where
  made := made
  code := ⟨first, code⟩
  stays j n hj hle hn := by
    obtain rfl : j = k + 1 := Nat.le_antisymm hle hj
    obtain rfl := Progress.more.inj (hs.symm.trans hn)
    exact mark ▸ List.suffix_refl _

/-- One step more, if the choice stays. -/
theorem succ (h : Chosen f p s k count chooser second)
    (hs : Progress.steps (step f p) (count + 1) s = .more last)
    (stays : .choice second chooser.seq chooser.position :: chooser.trail <:+ last.trail) :
    Chosen f p s k (count + 1) chooser second where
  made := h.made
  code := h.code
  stays j n hj hle hn := by
    rcases Nat.le_succ_iff.1 hle with hle | rfl
    · exact h.stays j n hj hle hn
    · obtain rfl := Progress.more.inj (hs.symm.trans hn)
      exact stays

/-- What was on the trail when a choice was made stays as long as the choice. -/
theorem outer (h : Chosen f p s k count chooser second)
    (h' : Chosen f p s k' k chooser' second') (hk : k' < k) :
    Chosen f p s k' count chooser' second' where
  made := h'.made
  code := h'.code
  stays j n hj hle hn := by
    rcases Nat.lt_or_ge k j with hlt | hge
    · have below := h'.stays k chooser hk (Nat.le_refl k) h.made
      exact (below.trans (List.suffix_cons _ _)).trans (h.stays j n hlt hle hn)
    · exact h'.stays j n hj hge hn

end Chosen

/-- Whatever machine a run of a program comes to, if there is a choice for it to go back to, then
this choice was made in a step of the run and has been on the trail since. Going back leads to the
machine that made it, with the bindings, the starts and the enclosing sequences that it had then,
and its trail, at its place in its sequence: all but the address, which is the other side of the
choice, and the count of steps. -/
theorem backtrack_restores
    (hs : Progress.steps (step f p) count (m.start p seq position) = .more last)
    (hb : last.backtrack = some back) :
    ∃ k < count, ∃ chooser second, Chosen f p (m.start p seq position) k count chooser second ∧
      back = { chooser with address := second, steps := back.steps } := by
  induction count using Nat.strong_induction_on generalizing last back with
  | _ count ih =>
    cases count with
    | zero =>
      obtain rfl := Progress.more.inj hs
      cases hb
    | succ count =>
      obtain ⟨prev, hprev, hstep⟩ := Progress.steps_succ_last hs
      cases stepped_of_step hstep with
      | @onward i _ code obeyed =>
        by_cases hi : ∃ first second, i = .split first second
        · obtain ⟨first, second, rfl⟩ := hi
          obtain rfl := Option.some.inj (Except.ok.inj obeyed)
          obtain rfl := Option.some.inj hb
          exact ⟨count, Nat.lt_succ_self _, prev, second, .now hprev code hs rfl, rfl⟩
        · -- The choice to go back to is the one from before the instruction.
          have hsame := backtrack_obey obeyed fun first second e => hi ⟨first, second, e⟩
          rw [hb, backtrack_steps] at hsame
          obtain ⟨back', hback', rfl⟩ := Option.map_eq_some_iff.1 hsame.symm
          obtain ⟨k, hk, chooser, second, chosen, he⟩ := ih count (Nat.lt_succ_self _) hprev hback'
          have grows : prev.trail <:+ last.trail := (trail_suffix_of_obey obeyed :)
          have stays := chosen.stays count prev hk (Nat.le_refl _) hprev
          refine ⟨k, Nat.lt_succ_of_lt hk, chooser, second, chosen.succ hs (stays.trans grows), ?_⟩
          rw [he]
      | back code stuck went =>
        -- The machine went back to a choice. What it can go back to next is what the machine that
        -- made this choice could go back to.
        rw [backtrack_steps] at went
        obtain ⟨back', hback', rfl⟩ := Option.map_eq_some_iff.1 went
        obtain ⟨k, hk, chooser, second, chosen, he⟩ := ih count (Nat.lt_succ_self _) hprev hback'
        have hnext : { back' with steps := prev.steps + 1 }.backtrack =
            chooser.backtrack.map fun n => { n with steps := prev.steps + 1 } := by
          rw [he, ← backtrack_steps]
          exact unwind_stand { chooser with steps := prev.steps + 1 } _ _ _ _ _
        rw [hb] at hnext
        obtain ⟨outer, houter, rfl⟩ := Option.map_eq_some_iff.1 hnext.symm
        obtain ⟨k', hk', chooser', second', chosen', he'⟩ :=
          ih k (Nat.lt_succ_of_lt hk) chosen.made houter
        have htrail : back'.trail = chooser.trail := (congrArg Machine.trail he :)
        have stays := chosen'.stays k chooser hk' (Nat.le_refl k) chosen.made
        refine ⟨k', by omega, chooser', second',
          (chosen.outer chosen' hk').succ hs (htrail ▸ stays), ?_⟩
        rw [he']

/-- The end is required where another node follows, after a choice inside a nested sequence was made
and the sequence and the capture around it were left. -/
theorem backtrack_restores_nested :
    let items : List Pattern := [.named "x" [.sequence [.choice [.any, .any]]], .atEnd]
    let f := Forest.ofValue (.seq [.seq [.scalar (.int 1)], .scalar (.int 2)])
    let p := Program.ofItems items
    ∃ last back, Progress.steps (step f p) 7 (new.start p f.root 0) = .more last ∧
      last.backtrack = some back ∧ last.bindings ≠ back.bindings ∧ last.outers ≠ back.outers ∧
      ∃ k < 7, ∃ chooser second, Chosen f p (new.start p f.root 0) k 7 chooser second ∧
        back = { chooser with address := second, steps := back.steps } := by
  intro items f p
  obtain ⟨last, back, hs, hb, hbindings, houters⟩ : ∃ last back,
      Progress.steps (step f p) 7 (new.start p f.root 0) = .more last ∧
      last.backtrack = some back ∧ last.bindings ≠ back.bindings ∧ last.outers ≠ back.outers :=
    ⟨_, _, rfl, rfl, by decide, by decide⟩
  exact ⟨last, back, hs, hb, hbindings, houters, backtrack_restores hs hb⟩

end NestedRegex.Machine
