import Mathlib.Tactic.SplitIfs
import NestedRegex.Forest.Word
import NestedRegex.Proofs.Forest.Zones

namespace NestedRegex

namespace Span

/-- The bounds of a span are words. -/
def InWords (s : Span) : Prop :=
  s.start < Word.limit ∧ s.length < Word.limit

/-- The same span with its bounds wrapped around. -/
def wrapped (s : Span) : Span :=
  { s with start := s.start % Word.limit, length := s.length % Word.limit }

variable {s : Span}

theorem InWords.wrapped_eq (h : s.InWords) : s.wrapped = s := by
  rw [wrapped, Nat.mod_eq_of_lt h.1, Nat.mod_eq_of_lt h.2]

theorem inWords_of_stop_lt (h : s.stop < Word.limit) : s.InWords :=
  ⟨Nat.lt_of_le_of_lt (Nat.le_add_right ..) h, Nat.lt_of_le_of_lt (Nat.le_add_left ..) h⟩

end Span

namespace Word

variable {s old a b : Span} {seq : SeqName} {start count : Nat}

theorem ofInt_natCast (n : Nat) : ofInt n = .ok (n % limit) := by
  rw [ofInt, if_neg (Int.not_lt.2 (Int.natCast_nonneg n)), Int.toNat_natCast]

theorem stop_le (s : Span) : stop s ≤ s.stop :=
  Nat.mod_le _ _

theorem stop_eq (h : s.stop < limit) : stop s = s.stop :=
  Nat.mod_eq_of_lt h

theorem encloses_eq (ha : a.stop < limit) (hs : s.stop < limit) : encloses a s = a.encloses s := by
  rw [encloses, Span.encloses, stop_eq ha, stop_eq hs]

/-- What lies behind a span starts no earlier than the span is long. -/
theorem shifted_eq (hs : s.InWords) (h : old.stop ≤ s.start) (count : Nat) :
    shifted s (count - old.length) =
      .ok { s with start := s.start + count - old.length }.wrapped := by
  rw [Span.stop] at h
  have hstart : (s.start : Int) + (count - old.length) = (s.start + count - old.length : Nat) := by
    omega
  rw [shifted, hstart, ofInt_natCast, Span.wrapped, Nat.mod_eq_of_lt hs.2]
  rfl

/-- A span that encloses another is at least as long, so it can be shortened by as much. -/
theorem stretched_eq (hs : s.InWords) (hold : old.stop < limit) (h : encloses s old = true)
    (count : Nat) : stretched s old count = .ok (s.stretched old count).wrapped := by
  have hle := stop_le s
  simp only [encloses, decide_eq_true_eq, stop_eq hold] at h
  simp only [Span.stop] at h hle
  have hlength : (s.length : Int) + (count - old.length) =
      (s.length + count - old.length : Nat) := by
    omega
  rw [stretched, hlength, ofInt_natCast, Span.wrapped, Span.stretched, Nat.mod_eq_of_lt hs.1]
  rfl

/-- A span starts no earlier than one that encloses it. -/
theorem carried_eq (hs : s.InWords) (h : encloses a s = true) (seq : SeqName) (start : Nat) :
    carried s a seq start = .ok (s.carried a seq start).wrapped := by
  simp only [encloses, decide_eq_true_eq] at h
  have hlead : (s.start : Int) - a.start = (s.start - a.start : Nat) := by omega
  simp only [carried, hlead, ofInt_natCast, bind, Except.bind]
  rw [← Int.natCast_add, ofInt_natCast]
  simp only [Nat.add_mod_mod, Span.wrapped, Span.carried, Nat.mod_eq_of_lt hs.2]
  rfl

/-- Where a span goes is reckoned without fault, and comes to a span in words: the exact one, if the
stop of the span did not wrap around, with its bounds wrapped around. -/
def Reckoned (s : Span) (reckoned : Except Fault (Option Span)) (exact : Option Span) : Prop :=
  ∃ t, reckoned = .ok (t.map Span.wrapped) ∧ (s.stop < limit → t = exact)

theorem Reckoned.known {t : Span} (ht : t.InWords) {exact : Option Span}
    (h : s.stop < limit → some t = exact) : Reckoned s (.ok (some t)) exact :=
  ⟨some t, by rw [Option.map_some, ht.wrapped_eq], h⟩

theorem Reckoned.filter {reckoned : Except Fault (Option Span)} {exact : Option Span}
    (h : Reckoned s reckoned exact) (stays : SeqName → Bool) :
    Reckoned s (Option.filter (fun t => stays t.seq) <$> reckoned)
      (exact.filter fun t => stays t.seq) := by
  obtain ⟨t, ht, hexact⟩ := h
  refine ⟨t.filter fun t => stays t.seq, ?_, fun hlt => by rw [hexact hlt]⟩
  rw [ht]
  exact congrArg Except.ok Option.filter_map

theorem Reckoned.goes {t : Span} {reckoned : Except Fault Span} {exact : Option Span}
    (hr : reckoned = .ok t.wrapped) (h : s.stop < limit → some t = exact) :
    Reckoned s (some <$> reckoned) exact :=
  ⟨some t, by rw [hr]; rfl, h⟩

theorem reckoned_whenReplaced (hs : s.InWords) (hold : old.stop < limit) (count : Nat) :
    Reckoned s (whenReplaced s old count) (s.whenReplaced old count) := by
  rw [whenReplaced, stop_eq hold]
  split_ifs with hout hbehind
  · refine .known hs fun hlt => ?_
    rw [stop_eq hlt] at hout
    rw [Span.whenReplaced, if_pos hout]
  · refine .goes (shifted_eq hs hbehind count) fun hlt => ?_
    rw [stop_eq hlt] at hout
    rw [Span.whenReplaced, if_neg hout, if_pos hbehind]
  · refine ⟨none, rfl, fun hlt => ?_⟩
    rw [stop_eq hlt] at hout
    rw [Span.whenReplaced, if_neg hout, if_neg hbehind]

theorem reckoned_whenExchanged (hs : s.InWords) (ha : a.stop < limit) (hb : b.stop < limit) :
    Reckoned s (whenExchanged s a b) (s.whenExchanged a b) := by
  have exact (hlt : s.stop < limit) : s.whenExchanged a b =
      if encloses a s then some (s.carried a b.seq b.start)
      else if encloses b s then some (s.carried b a.seq a.start)
      else if encloses s a then some (s.stretched a b.length)
      else if encloses s b then some (s.stretched b a.length)
      else if s.seq = a.seq then s.whenReplaced a b.length
      else s.whenReplaced b a.length := by
    rw [encloses_eq ha hlt, encloses_eq hb hlt, encloses_eq hlt ha, encloses_eq hlt hb]
    rfl
  rw [whenExchanged]
  split_ifs with hina hinb houta houtb hseq
  · exact .goes (carried_eq hs hina ..) fun hlt => by rw [exact hlt, if_pos hina]
  · exact .goes (carried_eq hs hinb ..) fun hlt => by rw [exact hlt, if_neg hina, if_pos hinb]
  · exact .goes (stretched_eq hs ha houta _) fun hlt => by
      rw [exact hlt, if_neg hina, if_neg hinb, if_pos houta]
  · exact .goes (stretched_eq hs hb houtb _) fun hlt => by
      rw [exact hlt, if_neg hina, if_neg hinb, if_neg houta, if_pos houtb]
  · obtain ⟨t, ht, hexact⟩ := reckoned_whenReplaced hs ha b.length
    exact ⟨t, ht, fun hlt => by
      rw [exact hlt, if_neg hina, if_neg hinb, if_neg houta, if_neg houtb, if_pos hseq,
        hexact hlt]⟩
  · obtain ⟨t, ht, hexact⟩ := reckoned_whenReplaced hs hb a.length
    exact ⟨t, ht, fun hlt => by
      rw [exact hlt, if_neg hina, if_neg hinb, if_neg houta, if_neg houtb, if_neg hseq,
        hexact hlt]⟩

/-- In one sequence `a` must stop before `b` starts, or its nodes would come to a place before the
sequence begins. -/
theorem reckoned_whenExchangedWithin (hs : s.InWords) (ha : a.stop < limit) (hb : b.stop < limit)
    (order : a.stop ≤ b.start) :
    Reckoned s (whenExchangedWithin s a b) (s.whenExchangedWithin a b) := by
  have exact (hlt : s.stop < limit) : s.whenExchangedWithin a b =
      if s.seq ≠ a.seq then some s
      else if encloses a s then some (s.carried a a.seq (b.start + b.length - a.length))
      else if encloses b s then some (s.carried b a.seq a.start)
      else if stop s ≤ a.start ∨ stop b ≤ s.start then some s
      else if stop a ≤ s.start ∧ stop s ≤ b.start then
        some { s with start := s.start + b.length - a.length }
      else if s.start ≤ a.start ∧ stop b ≤ stop s then some s
      else none := by
    rw [encloses_eq ha hlt, encloses_eq hb hlt, stop_eq ha, stop_eq hb, stop_eq hlt]
    rfl
  have hcome : ofInt (b.start + (b.length - a.length)) =
      .ok (b.start + b.length - a.length) := by
    simp only [Span.stop] at order hb
    have hstart : (b.start : Int) + (b.length - a.length) =
        (b.start + b.length - a.length : Nat) := by
      omega
    rw [hstart, ofInt_natCast, Nat.mod_eq_of_lt (by omega)]
  have behind (count : Nat) (h : stop a ≤ s.start) : shifted s (count - a.length) =
      .ok { s with start := s.start + count - a.length }.wrapped :=
    shifted_eq hs (stop_eq ha ▸ h) count
  simp only [whenExchangedWithin, hcome, bind, Except.bind, pure, Except.pure]
  split_ifs with hseq hina hinb hbeside hbetween haround
  · exact .known hs fun hlt => by rw [exact hlt, if_pos hseq]
  · exact .goes (carried_eq hs hina ..) fun hlt => by rw [exact hlt, if_neg hseq, if_pos hina]
  · exact .goes (carried_eq hs hinb ..) fun hlt => by
      rw [exact hlt, if_neg hseq, if_neg hina, if_pos hinb]
  · exact .known hs fun hlt => by
      rw [exact hlt, if_neg hseq, if_neg hina, if_neg hinb, if_pos hbeside]
  · exact .goes (behind _ hbetween.1) fun hlt => by
      rw [exact hlt, if_neg hseq, if_neg hina, if_neg hinb, if_neg hbeside, if_pos hbetween]
  · exact .known hs fun hlt => by
      rw [exact hlt, if_neg hseq, if_neg hina, if_neg hinb, if_neg hbeside, if_neg hbetween,
        if_pos haround]
  · exact ⟨none, rfl, fun hlt => by
      rw [exact hlt, if_neg hseq, if_neg hina, if_neg hinb, if_neg hbeside, if_neg hbetween,
        if_neg haround]⟩

theorem reckoned_whenSwapped (hs : s.InWords) (ha : a.stop < limit) (hb : b.stop < limit)
    (order : a.seq = b.seq → a.stop ≤ b.start) :
    Reckoned s (whenSwapped s a b) (s.whenSwapped a b) := by
  unfold whenSwapped Span.whenSwapped
  split_ifs with e
  · exact reckoned_whenExchangedWithin hs ha hb (order e)
  · exact reckoned_whenExchanged hs ha hb

end Word

end NestedRegex
