import NestedRegex.Forest.Span

namespace NestedRegex.Span

/-- The span lies in its sequence, with at least `lo` children before it and `hi` behind it. -/
def Fits (lo hi len : SeqName → Nat) (s : Span) : Prop :=
  lo s.seq ≤ s.start ∧ s.stop + hi s.seq ≤ len s.seq

variable {lo hi len len' : SeqName → Nat} {s t a b : Span} {count : Nat}

theorem seq_whenReplaced (h : s.whenReplaced a count = some t) : t.seq = s.seq := by
  unfold whenReplaced at h
  split at h
  · rw [← Option.some.inj h]
  · split at h
    · rw [← Option.some.inj h]
    · cases h

theorem whenReplaced_elsewhere (ne : s.seq ≠ a.seq) : s.whenReplaced a count = some s :=
  if_pos (.inl ne)

/-- A span that stops before a replaced one starts stays. -/
theorem whenReplaced_before (h : s.stop ≤ a.start) : s.whenReplaced a count = some s :=
  if_pos (.inr h)

/-- One that starts where the replaced one stops, or behind, moves. -/
theorem whenReplaced_behind (e : s.seq = a.seq) (h : ¬s.stop ≤ a.start)
    (h' : a.stop ≤ s.start) :
    s.whenReplaced a count = some { s with start := s.start + count - a.length } := by
  rw [whenReplaced, if_neg (by simp [e, h]), if_pos h']

/-- `count` nodes took the place of `a`, and the other sequences are as long as they were. -/
theorem fits_whenReplaced (hs : s.Fits lo hi len) (ha : a.Fits lo hi len)
    (hlen : len' a.seq + a.length = len a.seq + count)
    (other : ∀ id, id ≠ a.seq → len' id = len id) (h : s.whenReplaced a count = some t) :
    t.Fits lo hi len' := by
  unfold whenReplaced at h
  split at h
  · next hc =>
    obtain rfl := Option.some.inj h
    by_cases e : s.seq = a.seq
    · have hle := hc.resolve_left fun ne => ne e
      simp only [Fits, stop, e] at hs ha hle ⊢
      omega
    · rw [Fits, other _ e]
      exact hs
  · next hc =>
    split at h
    · next hb =>
      obtain rfl := Option.some.inj h
      have e : s.seq = a.seq := Decidable.byContradiction fun e => hc (.inl e)
      simp only [Fits, stop, e] at hs ha hb ⊢
      omega
    · cases h

/-- The span of the edit itself, which has the new nodes. -/
theorem fits_replaced (ha : a.Fits lo hi len)
    (hlen : len' a.seq + a.length = len a.seq + count) :
    Fits lo hi len' { a with length := count } := by
  simp only [Fits, stop] at ha ⊢
  omega

theorem encloses_iff : s.encloses a = true ↔
    s.seq = a.seq ∧ s.start ≤ a.start ∧ a.stop ≤ s.stop := by
  simp [encloses]

/-- A span encloses none of another sequence. -/
theorem not_encloses_of_seq_ne (ne : s.seq ≠ a.seq) : ¬s.encloses a = true :=
  fun h => ne (encloses_iff.1 h).1

/-- A span that goes with the nodes of `a` to the place of `b`. -/
theorem fits_carried (hc : a.seq = s.seq ∧ a.start ≤ s.start ∧ s.stop ≤ a.stop)
    (hb : b.Fits lo hi len) (hlen : len' b.seq + b.length = len b.seq + a.length) :
    (s.carried a b.seq b.start).Fits lo hi len' := by
  obtain ⟨-, hl, hr⟩ := hc
  simp only [Fits, carried, stop] at hl hr hb ⊢
  omega

/-- A span around `a`, once the nodes of `b` stand there. -/
theorem fits_stretched (hc : s.seq = a.seq ∧ s.start ≤ a.start ∧ a.stop ≤ s.stop)
    (hs : s.Fits lo hi len) (hlen : len' a.seq + a.length = len a.seq + b.length) :
    (s.stretched a b.length).Fits lo hi len' := by
  obtain ⟨e, hl, hr⟩ := hc
  simp only [Fits, stretched, stop, e] at hl hr hs ⊢
  omega

theorem seq_whenExchanged (h : s.whenExchanged a b = some t) :
    t.seq = s.seq ∨ t.seq = a.seq ∨ t.seq = b.seq := by
  unfold whenExchanged at h
  repeat' split at h
  · rw [← Option.some.inj h]
    exact .inr (.inr rfl)
  · rw [← Option.some.inj h]
    exact .inr (.inl rfl)
  · rw [← Option.some.inj h]
    exact .inl rfl
  · rw [← Option.some.inj h]
    exact .inl rfl
  · exact .inl (seq_whenReplaced h)
  · exact .inl (seq_whenReplaced h)

/-- `a` and `b`, of different sequences, exchanged their nodes. -/
theorem fits_whenExchanged (hs : s.Fits lo hi len) (ha : a.Fits lo hi len)
    (hb : b.Fits lo hi len) (ne : a.seq ≠ b.seq)
    (hlenA : len' a.seq + a.length = len a.seq + b.length)
    (hlenB : len' b.seq + b.length = len b.seq + a.length)
    (other : ∀ id, id ≠ a.seq → id ≠ b.seq → len' id = len id)
    (h : s.whenExchanged a b = some t) : t.Fits lo hi len' := by
  unfold whenExchanged at h
  split at h
  · next hc =>
    obtain rfl := Option.some.inj h
    exact fits_carried (encloses_iff.1 hc) hb hlenB
  · split at h
    · next hc =>
      obtain rfl := Option.some.inj h
      exact fits_carried (encloses_iff.1 hc) ha hlenA
    · split at h
      · next hc =>
        obtain rfl := Option.some.inj h
        exact fits_stretched (encloses_iff.1 hc) hs hlenA
      · split at h
        · next hc =>
          obtain rfl := Option.some.inj h
          exact fits_stretched (encloses_iff.1 hc) hs hlenB
        · split at h
          · next e =>
            -- The other sequence plays no part here, so its length may be taken as the new one.
            let mid := fun id => if id = b.seq then len' id else len id
            have hs' : s.Fits lo hi mid := by simpa only [Fits, mid, e, if_neg ne] using hs
            have ha' : a.Fits lo hi mid := by simpa only [Fits, mid, if_neg ne] using ha
            have hlen' : len' a.seq + a.length = mid a.seq + b.length := by
              simpa only [mid, if_neg ne] using hlenA
            refine fits_whenReplaced hs' ha' hlen' (fun id hid => ?_) h
            by_cases eb : id = b.seq
            · simp only [mid, if_pos eb]
            · simp only [mid, if_neg eb, other id hid eb]
          · next e =>
            let mid := fun id => if id = a.seq then len' id else len id
            have hs' : s.Fits lo hi mid := by simpa only [Fits, mid, if_neg e] using hs
            have hb' : b.Fits lo hi mid := by simpa only [Fits, mid, if_neg ne.symm] using hb
            have hlen' : len' b.seq + b.length = mid b.seq + a.length := by
              simpa only [mid, if_neg ne.symm] using hlenB
            refine fits_whenReplaced hs' hb' hlen' (fun id hid => ?_) h
            by_cases ea : id = a.seq
            · simp only [mid, if_pos ea]
            · simp only [mid, if_neg ea, other id ea hid]

theorem seq_whenExchangedWithin (h : s.whenExchangedWithin a b = some t) : t.seq = s.seq := by
  unfold whenExchangedWithin at h
  split at h
  · rw [← Option.some.inj h]
  · next hs =>
    rw [ne_eq, Decidable.not_not] at hs
    repeat' split at h
    · rw [← Option.some.inj h]
      exact hs.symm
    · rw [← Option.some.inj h]
      exact hs.symm
    · rw [← Option.some.inj h]
    · rw [← Option.some.inj h]
    · rw [← Option.some.inj h]
    · cases h

/-- `a` and `b`, of one sequence and in this order, exchanged their nodes. -/
theorem fits_whenExchangedWithin (hs : s.Fits lo hi len) (ha : a.Fits lo hi len)
    (hb : b.Fits lo hi len) (e : a.seq = b.seq) (order : a.stop ≤ b.start)
    (h : s.whenExchangedWithin a b = some t) : t.Fits lo hi len := by
  unfold whenExchangedWithin at h
  split at h
  · exact Option.some.inj h ▸ hs
  · next hseq =>
    rw [ne_eq, Decidable.not_not] at hseq
    split at h
    · next hc =>
      obtain rfl := Option.some.inj h
      obtain ⟨-, hl, hr⟩ := encloses_iff.1 hc
      simp only [Fits, carried, stop, ← e] at hl hr order ha hb ⊢
      omega
    · split at h
      · next hc =>
        obtain rfl := Option.some.inj h
        obtain ⟨-, hl, hr⟩ := encloses_iff.1 hc
        simp only [Fits, carried, stop, ← e] at hl hr order ha hb ⊢
        omega
      · split at h
        · exact Option.some.inj h ▸ hs
        · split at h
          · next hc =>
            obtain rfl := Option.some.inj h
            simp only [Fits, stop, hseq, ← e] at hc order hs ha hb ⊢
            omega
          · split at h
            · exact Option.some.inj h ▸ hs
            · cases h

end NestedRegex.Span
