import NestedRegex.Proofs.Forest.Exchange
import NestedRegex.Proofs.Forest.Patches

namespace NestedRegex

namespace Span

variable {s t u : Span}

/-- The span takes in the nodes of `b`, which come to where the empty span `a` lies at one of its
ends. -/
def Admits (u a b : Span) : Prop :=
  a.seq ≠ b.seq ∧ u.encloses a = true ∧ a.length = 0 ∧ 0 < u.length ∧ 0 < b.length

instance (u a b : Span) : Decidable (u.Admits a b) :=
  inferInstanceAs (Decidable (_ ∧ _))

theorem Admits.seq_eq {a b : Span} (h : u.Admits a b) : u.seq = a.seq :=
  (encloses_iff.1 h.2.1).1

theorem not_admits_of_length {a b : Span} (h : u.length = 0) : ¬u.Admits a b :=
  fun ha => absurd h (Nat.ne_of_gt ha.2.2.2.1)

/-- Of two spans of one sequence that do not overlap one stops before the other starts. -/
theorem apart_of_not_overlaps (h : u.overlaps s = false) (e : u.seq = s.seq) :
    u.stop ≤ s.start ∨ s.stop ≤ u.start := by
  simp only [overlaps, e, true_and, decide_eq_false_iff_not] at h
  omega

/-- A span inside another that it does not overlap is empty. -/
theorem length_eq_zero_of_encloses (h : s.encloses u = true) (ho : u.overlaps s = false) :
    u.length = 0 := by
  obtain ⟨e, hl, hr⟩ := encloses_iff.1 h
  have hapart := apart_of_not_overlaps ho e.symm
  simp only [stop] at hr hapart
  omega

end Span

namespace Forest

variable {f g mid : Forest} {s t u x y : Span} {front old new back nodes : List Node}

theorem drop_take_append {before run behind : List Node} {n l : Nat} (hn : before.length ≤ n)
    (hl : n + l ≤ before.length + run.length) :
    ((before ++ run ++ behind).drop n).take l = (run.drop (n - before.length)).take l := by
  rw [List.append_assoc, List.drop_append, List.drop_eq_nil_of_le hn, List.nil_append,
    List.drop_append, List.take_append_of_le_length]
  rw [List.length_drop]
  omega

/-- Nodes inside a run of children that stays together are found where the run is. -/
theorem nodes?_of_run {before run behind before' behind' : List Node}
    (hf : f.children? u.seq = some (before ++ run ++ behind))
    (hg : g.children? t.seq = some (before' ++ run ++ behind')) (hn : f.nodes? u = some nodes)
    (hstart : before.length ≤ u.start) (hstop : u.stop ≤ before.length + run.length)
    (ht : t.start + before.length = u.start + before'.length) (hlength : t.length = u.length) :
    g.nodes? t = some nodes := by
  simp only [Span.stop] at hstop
  have hin : t.stop ≤ (before' ++ run ++ behind').length := by
    simp only [Span.stop, List.length_append]
    omega
  have hin' : u.stop ≤ (before ++ run ++ behind).length := by
    simp only [Span.stop, List.length_append]
    omega
  rw [nodes?_eq, hf, Option.bind_some, if_pos hin', drop_take_append hstart (by omega)] at hn
  rw [nodes?_eq, hg, Option.bind_some, if_pos hin, drop_take_append (by omega) (by omega),
    hlength, ← hn]
  congr 3
  omega

section Replaced

variable (hbefore : f.children? s.seq = some (front ++ old ++ back))
  (hafter : g.children? s.seq = some (front ++ new ++ back)) (hfront : front.length = s.start)
  (hold : old.length = s.length) (hn : f.nodes? u = some nodes) (ho : u.overlaps s = false)
include hbefore hafter hfront hold hn ho

/-- A span of the same sequence that shares no position with a replaced one goes with its nodes. -/
theorem nodes?_whenReplaced (e : u.seq = s.seq) :
    ∃ t, u.whenReplaced s new.length = some t ∧ g.nodes? t = some nodes := by
  by_cases hle : u.stop ≤ s.start
  · refine ⟨u, Span.whenReplaced_before hle, ?_⟩
    have hf : f.children? u.seq = some ([] ++ front ++ (old ++ back)) := by
      rw [e, hbefore, List.nil_append, List.append_assoc]
    have hg : g.children? u.seq = some ([] ++ front ++ (new ++ back)) := by
      rw [e, hafter, List.nil_append, List.append_assoc]
    exact nodes?_of_run hf hg hn (Nat.zero_le _) (by simpa [hfront] using hle) rfl rfl
  · have hge := (Span.apart_of_not_overlaps ho e).resolve_left hle
    refine ⟨_, Span.whenReplaced_behind e hle hge, ?_⟩
    have hf : f.children? u.seq = some ((front ++ old) ++ back ++ []) := by
      rw [e, hbefore, List.append_nil]
    have hg : g.children? u.seq = some ((front ++ new) ++ back ++ []) := by
      rw [e, hafter, List.append_nil]
    have hstop := stop_le_of_nodes? hn
    rw [e, nodesOf_eq hbefore] at hstop
    simp only [Span.stop, List.length_append] at hge hstop
    refine nodes?_of_run hf hg hn ?_ ?_ ?_ rfl <;>
      simp only [Span.stop, List.length_append] <;> omega

/-- A span with an empty one at its end has its nodes afterwards just if it takes in none. -/
theorem nodes?_stretched_iff {b : Span} (hnew : new.length = b.length) (ne : s.seq ≠ b.seq)
    (hout : ¬s.encloses u = true) (henc : u.encloses s = true) :
    g.nodes? (u.stretched s b.length) = some nodes ↔ ¬u.Admits s b := by
  have hempty : s.length = 0 :=
    Span.length_eq_zero_of_encloses henc ((Span.overlaps_comm s u).trans ho)
  have hpos : 0 < u.length := by
    refine Nat.pos_of_ne_zero fun hz => hout (Span.encloses_iff.2 ?_)
    obtain ⟨e, hl, hr⟩ := Span.encloses_iff.1 henc
    simp only [Span.stop] at hr ⊢
    exact ⟨e.symm, by omega, by omega⟩
  have hpatched : u.patched s new nodes = nodes ↔ new = [] := by
    obtain ⟨-, before, behind, -, -, -, rfl, -, hlength⟩ :=
      split_of_encloses hbefore hfront hold hn henc
    obtain rfl : old = [] := List.eq_nil_of_length_eq_zero (hold.trans hempty)
    rw [Span.patched_append henc hlength hold, List.append_cancel_right_eq,
      List.append_cancel_left_eq]
  rw [← hnew, nodes?_stretched hbefore hfront hold hn henc hafter, Option.some_inj, hpatched]
  constructor
  · rintro rfl ⟨-, -, -, -, hb⟩
    exact absurd hnew (Nat.ne_of_lt hb)
  · intro h
    refine List.eq_nil_of_length_eq_zero (Nat.eq_zero_of_not_pos fun hb => ?_)
    exact h ⟨ne, henc, hempty, hpos, hnew ▸ hb⟩

end Replaced

/-- A span inside another goes with it and has its nodes there. -/
theorem nodes?_carried {a : Span} {id : SeqName} {start : Nat}
    {before run behind before' behind' : List Node}
    (hf : f.children? a.seq = some (before ++ run ++ behind)) (hbefore : before.length = a.start)
    (hrun : run.length = a.length) (hg : g.children? id = some (before' ++ run ++ behind'))
    (hstart : before'.length = start) (hn : f.nodes? u = some nodes)
    (henc : a.encloses u = true) : g.nodes? (u.carried a id start) = some nodes := by
  obtain ⟨e, hl, hr⟩ := Span.encloses_iff.1 henc
  rw [e] at hf
  refine nodes?_of_run hf hg hn (hbefore ▸ hl) ?_ ?_ rfl
  · rw [hbefore, hrun]
    exact hr
  · simp only [Span.carried]
    omega

section Exchanged

variable {xs ys frontX backX frontY backY : List Node}

/-- Of two spans in different sequences that exchange their nodes every span goes with its own
nodes that shares no position with them, unless it takes in those of one of them. -/
theorem nodes?_whenExchanged
    (ex : Exchanged f mid g x.seq y.seq xs ys frontX backX frontY backY)
    (startX : frontX.length = x.start) (lengthX : xs.length = x.length)
    (startY : frontY.length = y.start) (lengthY : ys.length = y.length)
    (hn : f.nodes? u = some nodes) (hx : u.overlaps x = false) (hy : u.overlaps y = false) :
    ∃ t, u.whenExchanged x y = some t ∧
      (g.nodes? t = some nodes ↔ ¬u.Admits x y ∧ ¬u.Admits y x) := by
  have hgx := ex.second.after
  have hgy := ex.children_b
  have hnone : u.length = 0 → ¬u.Admits x y ∧ ¬u.Admits y x := fun h =>
    ⟨Span.not_admits_of_length h, Span.not_admits_of_length h⟩
  unfold Span.whenExchanged
  split
  · next h =>
    exact ⟨_, rfl, iff_of_true (nodes?_carried ex.children_a startX lengthX hgy startY hn h)
      (hnone (Span.length_eq_zero_of_encloses h hx))⟩
  split
  · next h =>
    exact ⟨_, rfl, iff_of_true (nodes?_carried ex.first.before startY lengthY hgx startX hn h)
      (hnone (Span.length_eq_zero_of_encloses h hy))⟩
  split
  · next hout _ h =>
    have hother : ¬u.Admits y x := fun ha =>
      ex.ne ((Span.encloses_iff.1 h).1.symm.trans ha.seq_eq)
    refine ⟨_, rfl, ?_⟩
    rw [nodes?_stretched_iff ex.children_a hgx startX lengthX hn hx lengthY ex.ne hout h,
      and_iff_left hother]
  split
  · next hout _ h =>
    have hother : ¬u.Admits x y := fun ha =>
      ex.ne (ha.seq_eq.symm.trans (Span.encloses_iff.1 h).1)
    refine ⟨_, rfl, ?_⟩
    rw [nodes?_stretched_iff ex.first.before hgy startY lengthY hn hy lengthX ex.ne.symm hout h,
      and_iff_right hother]
  next houtX houtY =>
  have hnone : ¬u.Admits x y ∧ ¬u.Admits y x :=
    ⟨fun ha => houtX ha.2.1, fun ha => houtY ha.2.1⟩
  split
  · next e =>
    obtain ⟨t, ht, hg⟩ := nodes?_whenReplaced ex.children_a hgx startX lengthX hn hx e
    exact ⟨t, lengthY ▸ ht, iff_of_true hg hnone⟩
  · next e =>
    by_cases ey : u.seq = y.seq
    · obtain ⟨t, ht, hg⟩ := nodes?_whenReplaced ex.first.before hgy startY lengthY hn hy ey
      exact ⟨t, lengthX ▸ ht, iff_of_true hg hnone⟩
    · refine ⟨u, if_pos (.inl ey), iff_of_true ?_ hnone⟩
      rw [nodes?_eq, ex.other u.seq e ey, ← nodes?_eq]
      exact hn

/-- A span inside one of the two goes with its nodes. -/
theorem nodes?_whenExchanged_inside
    (ex : Exchanged f mid g x.seq y.seq xs ys frontX backX frontY backY)
    (startX : frontX.length = x.start) (lengthX : xs.length = x.length)
    (startY : frontY.length = y.start) (lengthY : ys.length = y.length)
    (hn : f.nodes? u = some nodes) (hin : x.encloses u = true ∨ y.encloses u = true) :
    ∃ t, u.whenExchanged x y = some t ∧ g.nodes? t = some nodes := by
  unfold Span.whenExchanged
  by_cases h : x.encloses u = true
  · rw [if_pos h]
    exact ⟨_, rfl, nodes?_carried ex.children_a startX lengthX ex.children_b startY hn h⟩
  · rw [if_neg h, if_pos (hin.resolve_left h)]
    exact ⟨_, rfl, nodes?_carried ex.first.before startY lengthY ex.second.after startX hn
      (hin.resolve_left h)⟩

end Exchanged

section Turned

variable {xs ys between : List Node}
  (sp : Spliced f g x.seq front (xs ++ between ++ ys) (ys ++ between ++ xs) back)
  (startX : front.length = x.start) (lengthX : xs.length = x.length)
  (startY : x.stop + between.length = y.start) (lengthY : ys.length = y.length)
  (hn : f.nodes? u = some nodes)
include sp startX lengthX startY lengthY hn

/-- Outside of two spans of one sequence that exchange their nodes nothing moves. -/
theorem nodes?_outside (e : u.seq = x.seq) (h : u.stop ≤ x.start ∨ y.stop ≤ u.start) :
    g.nodes? u = some nodes := by
  simp only [Span.stop] at startY h
  rcases h with h | h
  · have hf : f.children? u.seq = some ([] ++ front ++ (xs ++ between ++ ys ++ back)) := by
      rw [e, sp.before, List.nil_append, List.append_assoc]
    have hg : g.children? u.seq = some ([] ++ front ++ (ys ++ between ++ xs ++ back)) := by
      rw [e, sp.after, List.nil_append, List.append_assoc]
    exact nodes?_of_run hf hg hn (Nat.zero_le _) (by simp [Span.stop]; omega) rfl rfl
  · have hf : f.children? u.seq = some ((front ++ (xs ++ between ++ ys)) ++ back ++ []) := by
      rw [e, sp.before, List.append_nil]
    have hg : g.children? u.seq = some ((front ++ (ys ++ between ++ xs)) ++ back ++ []) := by
      rw [e, sp.after, List.append_nil]
    have hstop := stop_le_of_nodes? hn
    rw [e, nodesOf_eq sp.before] at hstop
    simp only [List.length_append] at hstop
    refine nodes?_of_run hf hg hn ?_ ?_ ?_ rfl <;> simp only [List.length_append] <;> omega

/-- Between them everything moves by the difference of their lengths. -/
theorem nodes?_between (e : u.seq = x.seq) (hl : x.stop ≤ u.start) (hr : u.stop ≤ y.start) :
    g.nodes? { u with start := u.start + y.length - x.length } = some nodes := by
  simp only [Span.stop] at startY hl hr
  have hf : f.children? u.seq = some ((front ++ xs) ++ between ++ (ys ++ back)) := by
    rw [e, sp.before]
    simp only [List.append_assoc]
  have hg : g.children? u.seq = some ((front ++ ys) ++ between ++ (xs ++ back)) := by
    rw [e, sp.after]
    simp only [List.append_assoc]
  refine nodes?_of_run hf hg hn ?_ ?_ ?_ rfl <;>
    simp only [Span.stop, List.length_append] <;> omega

/-- What is inside the first goes with it, behind what was between them. -/
theorem nodes?_inside_first (h : x.encloses u = true) :
    g.nodes? (u.carried x x.seq (y.start + y.length - x.length)) = some nodes := by
  have hf : f.children? x.seq = some (front ++ xs ++ (between ++ ys ++ back)) := by
    rw [sp.before]
    simp only [List.append_assoc]
  have hg : g.children? x.seq = some ((front ++ ys ++ between) ++ xs ++ back) := by
    rw [sp.after]
    simp only [List.append_assoc]
  refine nodes?_carried hf startX lengthX hg ?_ hn h
  simp only [Span.stop] at startY
  simp only [List.length_append]
  omega

/-- What is inside the second goes with it to where the first was. -/
theorem nodes?_inside_second (e : x.seq = y.seq) (h : y.encloses u = true) :
    g.nodes? (u.carried y x.seq x.start) = some nodes := by
  have hf : f.children? y.seq = some ((front ++ xs ++ between) ++ ys ++ back) := by
    rw [← e, sp.before]
    simp only [List.append_assoc]
  have hg : g.children? x.seq = some (front ++ ys ++ (between ++ xs ++ back)) := by
    rw [sp.after]
    simp only [List.append_assoc]
  refine nodes?_carried hf ?_ lengthY hg startX hn h
  simp only [Span.stop] at startY
  simp only [List.length_append]
  omega

/-- Where two spans of one sequence exchange their nodes every other span goes with its own nodes
that shares no position with them. -/
theorem nodes?_whenExchangedWithin (e : x.seq = y.seq) (hx : u.overlaps x = false)
    (hy : u.overlaps y = false) :
    ∃ t, u.whenExchangedWithin x y = some t ∧ g.nodes? t = some nodes := by
  unfold Span.whenExchangedWithin
  split
  · next ne =>
    refine ⟨u, rfl, ?_⟩
    rw [nodes?_eq, sp.other u.seq ne, ← nodes?_eq]
    exact hn
  next hu =>
  rw [ne_eq, Decidable.not_not] at hu
  split
  · next h => exact ⟨_, rfl, nodes?_inside_first sp startX lengthX startY lengthY hn h⟩
  split
  · next h => exact ⟨_, rfl, nodes?_inside_second sp startX lengthX startY lengthY hn e h⟩
  split
  · next h => exact ⟨u, rfl, nodes?_outside sp startX lengthX startY lengthY hn hu h⟩
  split
  · next h => exact ⟨_, rfl, nodes?_between sp startX lengthX startY lengthY hn hu h.1 h.2⟩
  · next houter hinner =>
    have hapartX := Span.apart_of_not_overlaps hx hu
    have hapartY := Span.apart_of_not_overlaps hy (hu.trans e)
    omega

/-- A span inside one of the two goes with its nodes. -/
theorem nodes?_whenExchangedWithin_inside (e : x.seq = y.seq)
    (hin : x.encloses u = true ∨ y.encloses u = true) :
    ∃ t, u.whenExchangedWithin x y = some t ∧ g.nodes? t = some nodes := by
  have hseq : u.seq = x.seq := by
    rcases hin with h | h
    · exact (Span.encloses_iff.1 h).1.symm
    · exact (Span.encloses_iff.1 h).1.symm.trans e.symm
  unfold Span.whenExchangedWithin
  rw [if_neg (not_not.2 hseq)]
  by_cases h : x.encloses u = true
  · rw [if_pos h]
    exact ⟨_, rfl, nodes?_inside_first sp startX lengthX startY lengthY hn h⟩
  · rw [if_neg h, if_pos (hin.resolve_left h)]
    exact ⟨_, rfl, nodes?_inside_second sp startX lengthX startY lengthY hn e
      (hin.resolve_left h)⟩

end Turned

end Forest

end NestedRegex
