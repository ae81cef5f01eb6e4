import NestedRegex.Proofs.Match.Exchanges

namespace NestedRegex

namespace Span

variable {α : Type} {s t u x y : Span} {ss ts items : List α}

theorem encloses_antisymm (h : u.encloses s = true) (h' : s.encloses u = true) : u = s := by
  obtain ⟨e, hl, hr⟩ := encloses_iff.1 h
  obtain ⟨-, hl', hr'⟩ := encloses_iff.1 h'
  obtain ⟨seq, start, length⟩ := u
  obtain ⟨seq', start', length'⟩ := s
  simp only [stop] at e hl hr hl' hr'
  rw [mk.injEq]
  exact ⟨e, by omega, by omega⟩

theorem encloses_trans (h : u.encloses s = true) (h' : s.encloses t = true) :
    u.encloses t = true := by
  obtain ⟨e, hl, hr⟩ := encloses_iff.1 h
  obtain ⟨e', hl', hr'⟩ := encloses_iff.1 h'
  exact encloses_iff.2 ⟨e.trans e', hl.trans hl', hr'.trans hr⟩

/-- No span is around spans of two sequences. -/
theorem not_encloses_of_ne (ne : x.seq ≠ y.seq) (h : u.encloses x = true) :
    ¬u.encloses y = true :=
  fun h' => ne ((encloses_iff.1 h).1.symm.trans (encloses_iff.1 h').1)

/-- The items of `u` once those of `s` and `t` changed places, of which `u` encloses one or both.
The one behind goes first, so that the other is still where it was. -/
def exchanged (u s t : Span) (ss ts items : List α) : List α :=
  if s.start ≤ t.start then u.patched s ts (u.patched t ss items)
  else u.patched t ss (u.patched s ts items)

theorem exchanged_of_not_encloses_second (h : ¬u.encloses t = true) :
    u.exchanged s t ss ts items = u.patched s ts items := by
  simp only [exchanged, patched_of_not_encloses h, ite_self]

theorem exchanged_of_not_encloses_first (h : ¬u.encloses s = true) :
    u.exchanged s t ss ts items = u.patched t ss items := by
  simp only [exchanged, patched_of_not_encloses h, ite_self]

/-- It does not matter which is called the first. -/
theorem exchanged_comm (h : s.seq = t.seq → s.start ≠ t.start) :
    u.exchanged s t ss ts items = u.exchanged t s ts ss items := by
  by_cases hs : u.encloses s = true
  · by_cases ht : u.encloses t = true
    · have hne := h ((encloses_iff.1 hs).1.symm.trans (encloses_iff.1 ht).1)
      unfold exchanged
      by_cases hle : s.start ≤ t.start
      · rw [if_pos hle, if_neg (by omega)]
      · rw [if_neg hle, if_pos (by omega)]
    · rw [exchanged_of_not_encloses_second ht, exchanged_of_not_encloses_first ht]
  · rw [exchanged_of_not_encloses_first hs, exchanged_of_not_encloses_second hs]

/-- A span around one of two spans of one sequence, of which neither is empty, is lost unless it is
around both. -/
theorem whenExchangedWithin_around (hx : 0 < x.length) (hy : 0 < y.length) (ux : u ≠ x)
    (uy : u ≠ y) (e : x.seq = y.seq) (order : x.stop ≤ y.start)
    (hin : u.encloses x = true ∨ u.encloses y = true) :
    u.whenExchangedWithin x y =
      if u.encloses x = true ∧ u.encloses y = true then some u else none := by
  have hseq : u.seq = x.seq := by
    rcases hin with h | h
    · exact (encloses_iff.1 h).1
    · exact (encloses_iff.1 h).1.trans e.symm
  have hoverX : ¬x.encloses u = true := by
    intro h
    rcases hin with h' | h'
    · exact ux (encloses_antisymm h' h)
    · obtain ⟨-, -, hr⟩ := encloses_iff.1 (encloses_trans h h')
      simp only [stop] at order hr
      omega
  have hoverY : ¬y.encloses u = true := by
    intro h
    rcases hin with h' | h'
    · obtain ⟨-, hl, -⟩ := encloses_iff.1 (encloses_trans h h')
      simp only [stop] at order
      omega
    · exact uy (encloses_antisymm h' h)
  simp only [encloses_iff, hseq, e, true_and] at hin
  simp only [stop] at order hin
  have hboth : u.encloses x = true ∧ u.encloses y = true ↔
      u.start ≤ x.start ∧ y.stop ≤ u.stop := by
    simp only [encloses_iff, hseq, e, true_and, stop]
    omega
  rw [whenExchangedWithin, if_neg (not_not.2 hseq), if_neg hoverX, if_neg hoverY,
    if_neg (by simp only [stop]; omega), if_neg (by simp only [stop]; omega)]
  simp only [hboth]

/-- A span around one of two spans in different sequences is stretched with it. -/
theorem whenExchanged_around_first (ne : x.seq ≠ y.seq) (ux : u ≠ x) (h : u.encloses x = true) :
    u.whenExchanged x y = some (u.stretched x y.length) := by
  have hseq := (encloses_iff.1 h).1
  have hoverX : ¬x.encloses u = true := fun h' => ux (encloses_antisymm h h')
  have hoverY : ¬y.encloses u = true := fun h' => ne ((encloses_iff.1 h').1.trans hseq).symm
  rw [whenExchanged, if_neg hoverX, if_neg hoverY, if_pos h]

theorem whenExchanged_around_second (ne : x.seq ≠ y.seq) (uy : u ≠ y) (h : u.encloses y = true) :
    u.whenExchanged x y = some (u.stretched y x.length) := by
  have hseq := (encloses_iff.1 h).1
  have hoverX : ¬x.encloses u = true := fun h' => ne ((encloses_iff.1 h').1.trans hseq)
  have hoverY : ¬y.encloses u = true := fun h' => uy (encloses_antisymm h h')
  rw [whenExchanged, if_neg hoverX, if_neg hoverY, if_neg (not_encloses_of_ne ne.symm h), if_pos h]

end Span

namespace Match

variable {m m' : Match} {a b h : Handle} {s t u x y : Span}
  {xs ys nodes frontX backX frontY backY : List Node}

/-- A handle stays valid if its span goes somewhere. -/
theorem Swapped.isValid_iff (hs : Swapped m m' a b x y xs ys frontX backX frontY backY)
    (hu : m.span h = .ok u) : m'.isValid h = true ↔ ∃ t, u.whenSwapped x y = some t := by
  rw [Match.isValid_iff]
  constructor
  · rintro ⟨t, ht⟩
    obtain rfl := hs.result
    obtain ⟨v, hv, hmoved⟩ := held_moved.1 (span_eq_ok_iff.1 ht).2
    obtain rfl : u = v := by simpa using (span_eq_ok_iff.1 hu).2.symm.trans hv
    exact ⟨t, hmoved⟩
  · rintro ⟨t, ht⟩
    exact ⟨t, hs.span hu ht⟩

section Around

variable (hs : Swapped m m' a b x y xs ys frontX backX frontY backY) (hu : m.span h = .ok u)
  (hn : m.forest.nodes? u = some nodes) (ux : u ≠ x) (uy : u ≠ y)
  (hin : u.encloses x = true ∨ u.encloses y = true)
include hs hu hn ux uy hin

/-- A handle around one of two spans in different sequences goes with what comes there. -/
theorem Swapped.around_across (ne : x.seq ≠ y.seq) :
    m'.isValid h = true ∧ m'.content h = .ok (u.exchanged x y xs ys nodes) := by
  obtain ⟨hfirst, hsecond⟩ := hs.traded.across ne
  obtain ⟨t, ht, hg⟩ : ∃ t, u.whenSwapped x y = some t ∧
      m'.forest.nodes? t = some (u.exchanged x y xs ys nodes) := by
    rw [Span.whenSwapped, if_neg ne]
    rcases hin with h | h
    · rw [Span.exchanged_of_not_encloses_second (Span.not_encloses_of_ne ne h),
        Span.whenExchanged_around_first ne ux h, ← hs.lengthY]
      exact ⟨_, rfl, hfirst.nodes?_stretched hn h⟩
    · rw [Span.exchanged_of_not_encloses_first (Span.not_encloses_of_ne ne.symm h),
        Span.whenExchanged_around_second ne uy h, ← hs.lengthX]
      exact ⟨_, rfl, hsecond.nodes?_stretched hn h⟩
  exact ⟨(hs.isValid_iff hu).2 ⟨t, ht⟩, content_eq_ok_iff.2 ⟨t, hs.span hu ht, hg⟩⟩

variable (hx : 0 < x.length) (hy : 0 < y.length)
include hx hy

/-- A handle around one of two spans of one sequence stays if it is around both. -/
theorem Swapped.around_within (e : x.seq = y.seq) :
    (m'.isValid h = true ↔ u.encloses x = true ∧ u.encloses y = true) ∧
      (m'.isValid h = true → m'.content h = .ok (u.exchanged x y xs ys nodes)) := by
  have order := hs.order e
  have hmove : u.whenSwapped x y =
      if u.encloses x = true ∧ u.encloses y = true then some u else none := by
    rw [Span.whenSwapped, if_pos e, Span.whenExchangedWithin_around hx hy ux uy e order hin]
  have hvalid : m'.isValid h = true ↔ u.encloses x = true ∧ u.encloses y = true := by
    rw [hs.isValid_iff hu, hmove]
    split <;> simp [*]
  refine ⟨hvalid, fun h => ?_⟩
  have hboth := hvalid.1 h
  rw [if_pos hboth] at hmove
  have hle : x.start ≤ y.start := (Nat.le_add_right _ _).trans order
  rw [Span.exchanged, if_pos hle]
  exact content_eq_ok_iff.2 ⟨u, hs.span hu hmove, hs.traded.nodes?_around e hn hboth.1 hboth.2⟩

/-- A handle around one of the two spans, of which neither is empty. -/
theorem Swapped.around :
    (m'.isValid h = true ↔ (x.seq = y.seq → u.encloses x = true ∧ u.encloses y = true)) ∧
      (m'.isValid h = true → m'.content h = .ok (u.exchanged x y xs ys nodes)) := by
  by_cases e : x.seq = y.seq
  · rw [forall_prop_of_true e]
    exact hs.around_within hu hn ux uy hin hx hy e
  · obtain ⟨hvalid, hafter⟩ := hs.around_across hu hn ux uy hin e
    exact ⟨iff_of_true hvalid fun h => absurd h e, fun _ => hafter⟩

end Around

section Found

variable {items : List Pattern} {p : Program} {f : Forest} {seq : SeqName} {start id : Nat}
  {found : Captures}

/-- After any run of operations on a match just found, let a swap be made of two spans that are not
empty. Every handle around one of them that has neither of these spans itself is valid afterwards,
unless it is around only one of two spans in one sequence. If it is valid, it has its nodes with
those of each span that it is around in the place of those of the other. A handle with one of the
two spans keeps its nodes. -/
theorem swap_around_isValid_iff (hp : Program.compileAll items = .ok p) (hf : f.Closed)
    (ha : f.Acyclic) (hc : f.contains seq = true) (hm : p.match? f seq start = .ok (some found))
    (run : Run (fun _ => True) (ofCaptures id p f found) m) (hswap : swap a b m = .ok () m')
    (hs : m.span a = .ok s) (ht : m.span b = .ok t) (hu : m.span h = .ok u) (spos : 0 < s.length)
    (tpos : 0 < t.length) (hin : u.encloses s = true ∨ u.encloses t = true) :
    ∃ ss ts nodes, m.content a = .ok ss ∧ m.content b = .ok ts ∧ m.content h = .ok nodes ∧
      (u ≠ s → u ≠ t →
        (m'.isValid h = true ↔ (s.seq = t.seq → u.encloses s = true ∧ u.encloses t = true)) ∧
        (m'.isValid h = true → m'.content h = .ok (u.exchanged s t ss ts nodes))) ∧
      (u = s ∨ u = t → m'.content h = .ok nodes) := by
  obtain ⟨hclosed, -, hnodes⟩ := content_of_run hp hf ha hc hm run
  obtain ⟨x, y, xs, ys, fx, bx, fy, by', hdone, hxy⟩ := swapped_of_swap hclosed hswap hs ht
  obtain ⟨hnx, hny⟩ := hdone.nodes_before
  obtain ⟨nodes, hn⟩ := hnodes h u hu
  have hbefore : m.content h = .ok nodes := content_eq_ok_iff.2 ⟨u, hu, hn⟩
  have hsame : u = s ∨ u = t → m'.content h = .ok nodes := by
    intro hsame
    refine content_of_swap hclosed hswap hs ht hbefore hu (hsame.imp ?_ ?_)
    · rintro rfl
      exact Span.encloses_refl _
    · rintro rfl
      exact Span.encloses_refl _
  rcases hxy with ⟨rfl, rfl⟩ | ⟨rfl, rfl⟩
  · exact ⟨xs, ys, nodes, content_eq_ok_iff.2 ⟨x, hs, hnx⟩, content_eq_ok_iff.2 ⟨y, ht, hny⟩,
      hbefore, fun us ut => hdone.around hu hn us ut hin spos tpos, hsame⟩
  · refine ⟨ys, xs, nodes, content_eq_ok_iff.2 ⟨y, hs, hny⟩, content_eq_ok_iff.2 ⟨x, ht, hnx⟩,
      hbefore, fun us ut => ?_, hsame⟩
    obtain ⟨hvalid, hafter⟩ := hdone.around hu hn ut us hin.symm tpos spos
    have hstart : y.seq = x.seq → y.start ≠ x.start := by
      intro e
      have order := hdone.order e.symm
      simp only [Span.stop] at order
      omega
    refine ⟨hvalid.trans ?_, fun h => ?_⟩
    · rw [eq_comm (a := x.seq), and_comm]
    · rw [Span.exchanged_comm hstart]
      exact hafter h

/-- A pair of nodes takes in the two nodes that come to where its first one was, from the sequence
behind it. -/
theorem swap_around_across :
    let items : List Pattern :=
      [.named "pair" [.named "l" [.any], .any], .sequence [.named "r" [.any, .any]]]
    let f := Forest.ofValue (.seq [.scalar (.int 5), .scalar (.int 6),
      .seq [.scalar (.int 7), .scalar (.int 8)]])
    let m := ofCaptures 0 (Program.ofItems items) f
      ⟨⟨⟨1⟩, 0, 3⟩, [some ⟨⟨1⟩, 0, 2⟩, some ⟨⟨1⟩, 0, 1⟩, some ⟨⟨0⟩, 0, 2⟩]⟩
    let swapped := Operation.after (.swap ⟨0, 2⟩ ⟨0, 3⟩) m
    swap ⟨0, 2⟩ ⟨0, 3⟩ m = .ok () swapped ∧ m.span ⟨0, 1⟩ = .ok ⟨⟨1⟩, 0, 2⟩ ∧
      swapped.isValid ⟨0, 1⟩ = true ∧
      swapped.content ⟨0, 1⟩ = .ok [.scalar (.int 7), .scalar (.int 8), .scalar (.int 6)] := by
  intro items f m swapped
  have hcompiled : Program.compileAll items = .ok (Program.ofItems items) := by rfl
  have hmatch : (Program.ofItems items).match? f f.root 0 =
      .ok (some ⟨⟨⟨1⟩, 0, 3⟩, [some ⟨⟨1⟩, 0, 2⟩, some ⟨⟨1⟩, 0, 1⟩, some ⟨⟨0⟩, 0, 2⟩]⟩) := by rfl
  have hswap : swap ⟨0, 2⟩ ⟨0, 3⟩ m = .ok () swapped :=
    edit_eq_ok_after (.swap ⟨0, 2⟩ ⟨0, 3⟩) (by decide +kernel)
  have hpair : m.span ⟨0, 1⟩ = .ok ⟨⟨1⟩, 0, 2⟩ := by rfl
  obtain ⟨ss, ts, nodes, hss, hts, hn, hiff, -⟩ :=
    swap_around_isValid_iff hcompiled (Forest.closed_ofValue _) (Forest.acyclic_ofValue _)
      (Forest.contains_root_ofValue _) hmatch .refl hswap (s := ⟨⟨1⟩, 0, 1⟩) (t := ⟨⟨0⟩, 0, 2⟩)
      (by rfl) (by rfl) hpair (by decide) (by decide) (.inl (by decide))
  obtain ⟨hvalid, hafter⟩ := hiff (by decide) (by decide)
  have hstays : swapped.isValid ⟨0, 1⟩ = true := hvalid.2 fun h => absurd h (by decide)
  obtain rfl : [.scalar (.int 5)] = ss := Except.ok.inj hss
  obtain rfl : [.scalar (.int 7), .scalar (.int 8)] = ts := Except.ok.inj hts
  obtain rfl : [.scalar (.int 5), .scalar (.int 6)] = nodes := Except.ok.inj hn
  exact ⟨hswap, hpair, hstays, hafter hstays⟩

/-- A handle around the first of two nodes that are swapped in one sequence is lost. -/
theorem swap_around_one_within_lost :
    let items : List Pattern := [.named "u" [.named "x" [.any], .any], .named "y" [.any]]
    let f := Forest.ofValue (.seq [.scalar (.int 1), .scalar (.int 2), .scalar (.int 3)])
    let m := ofCaptures 0 (Program.ofItems items) f
      ⟨⟨⟨0⟩, 0, 3⟩, [some ⟨⟨0⟩, 0, 2⟩, some ⟨⟨0⟩, 0, 1⟩, some ⟨⟨0⟩, 2, 1⟩]⟩
    let swapped := Operation.after (.swap ⟨0, 2⟩ ⟨0, 3⟩) m
    f.Closed ∧ f.Acyclic ∧
      (Program.ofItems items).match? f f.root 0 =
        .ok (some ⟨⟨⟨0⟩, 0, 3⟩, [some ⟨⟨0⟩, 0, 2⟩, some ⟨⟨0⟩, 0, 1⟩, some ⟨⟨0⟩, 2, 1⟩]⟩) ∧
      swap ⟨0, 2⟩ ⟨0, 3⟩ m = .ok () swapped ∧ m.span ⟨0, 2⟩ = .ok ⟨⟨0⟩, 0, 1⟩ ∧
      m.span ⟨0, 3⟩ = .ok ⟨⟨0⟩, 2, 1⟩ ∧ m.span ⟨0, 1⟩ = .ok ⟨⟨0⟩, 0, 2⟩ ∧
      Span.encloses ⟨⟨0⟩, 0, 2⟩ ⟨⟨0⟩, 0, 1⟩ = true ∧ m.isValid ⟨0, 1⟩ = true ∧
      swapped.isValid ⟨0, 1⟩ = false := by
  intro items f m swapped
  refine ⟨Forest.closed_ofValue _, Forest.acyclic_ofValue _, by rfl,
    edit_eq_ok_after (.swap ⟨0, 2⟩ ⟨0, 3⟩) (by decide +kernel), ?_⟩
  decide +kernel

end Found

end Match

end NestedRegex
