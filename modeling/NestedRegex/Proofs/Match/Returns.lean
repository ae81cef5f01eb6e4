import NestedRegex.Proofs.Match.Exchanges

namespace NestedRegex

namespace Span

variable {s t x y : Span}

/-- The span is empty and lies where the nodes of `t` begin. -/
def Heads (s t : Span) : Prop :=
  s.seq = t.seq ∧ s.length = 0 ∧ s.start = t.start ∧ 0 < t.length

instance (s t : Span) : Decidable (s.Heads t) :=
  inferInstanceAs (Decidable (_ ∧ _))

/-- Where a span is after two swaps with `t`. -/
def returned (s t : Span) : Span :=
  if s.Heads t then { s with start := t.stop } else s

theorem returned_of_not_heads (h : ¬s.Heads t) : s.returned t = s :=
  if_neg h

theorem returned_eq_self_iff : s.returned t = s ↔ ¬s.Heads t := by
  refine ⟨fun heq h => ?_, returned_of_not_heads⟩
  rw [returned, if_pos h] at heq
  have hstart := congrArg Span.start heq
  obtain ⟨-, -, hhead, hpos⟩ := h
  simp only [stop] at hstart
  omega

/-- The first of two spans comes to the place of the second if they lie in two sequences. -/
theorem whenSwapped_first (ne : x.seq ≠ y.seq) :
    x.whenSwapped x y = some ⟨y.seq, y.start, x.length⟩ := by
  rw [whenSwapped, if_neg ne, whenExchanged, if_pos (encloses_refl x), carried, Nat.sub_self,
    Nat.add_zero]

theorem whenSwapped_second (ne : x.seq ≠ y.seq) :
    y.whenSwapped x y = some ⟨x.seq, x.start, y.length⟩ := by
  rw [whenSwapped, if_neg ne, whenExchanged, if_neg (not_encloses_of_seq_ne ne),
    if_pos (encloses_refl y), carried, Nat.sub_self, Nat.add_zero]

/-- In one sequence it comes to where the second stops. -/
theorem whenSwapped_first_within (e : x.seq = y.seq) :
    x.whenSwapped x y = some ⟨x.seq, y.start + y.length - x.length, x.length⟩ := by
  rw [whenSwapped, if_pos e, whenExchangedWithin, if_neg (not_not.2 rfl),
    if_pos (encloses_refl x), carried, Nat.sub_self, Nat.add_zero]

theorem whenSwapped_second_within (e : x.seq = y.seq) (hout : ¬x.encloses y = true) :
    y.whenSwapped x y = some ⟨x.seq, x.start, y.length⟩ := by
  rw [whenSwapped, if_pos e, whenExchangedWithin, if_neg (not_not.2 e.symm), if_neg hout,
    if_pos (encloses_refl y), carried, Nat.sub_self, Nat.add_zero]

/-- An empty span at the end of the first is taken for a part of it, so that both stay. -/
theorem whenSwapped_tail (e : x.seq = y.seq) (order : x.stop ≤ y.start)
    (hin : x.encloses y = true) :
    x.whenSwapped x y = some x ∧ y.whenSwapped x y = some y := by
  obtain ⟨-, -, hstop⟩ := encloses_iff.1 hin
  simp only [stop] at order hstop
  have hx : y.start + y.length - x.length = x.start := by omega
  have hy : y.start + y.length - x.length + (y.start - x.start) = y.start := by omega
  refine ⟨?_, ?_⟩
  · rw [whenSwapped_first_within e, hx]
  · rw [whenSwapped, if_pos e, whenExchangedWithin, if_neg (not_not.2 e.symm), if_pos hin, carried,
      hy, e]

/-- Where two spans of one sequence come to that exchange their nodes again. Now the second is in
front, and encloses the first just if this one was empty and at its start. -/
theorem whenSwapped_back (e : x.seq = y.seq) (order : x.stop ≤ y.start)
    (hout : ¬x.encloses y = true) :
    let front : Span := ⟨x.seq, x.start, y.length⟩
    let behind : Span := ⟨x.seq, y.start + y.length - x.length, x.length⟩
    front.whenSwapped front behind = some y ∧
      behind.whenSwapped front behind = some (x.returned y) := by
  intro front behind
  simp only [encloses_iff, stop, e, true_and] at order hout
  have hstays : y.start + y.length - x.length + x.length - y.length = y.start := by omega
  refine ⟨?_, ?_⟩
  · rw [whenSwapped_first_within (x := front) (y := behind) rfl]
    simp only [front, behind, hstays, e]
  · have hin : front.encloses behind = true ↔ x.Heads y := by
      simp only [encloses_iff, Heads, stop, front, behind, e, true_and]
      omega
    by_cases h : x.Heads y
    · have horder : front.stop ≤ behind.start := by
        simp only [stop, front, behind]
        omega
      rw [(whenSwapped_tail (x := front) (y := behind) rfl horder (hin.2 h)).2, returned, if_pos h]
      simp only [behind, stop, h.2.1, Nat.sub_zero]
    · rw [whenSwapped_second_within (x := front) (y := behind) rfl (mt hin.1 h),
        returned_of_not_heads h]

end Span

namespace Match

variable {m m' : Match} {a b h : Handle} {s t x y : Span}
  {xs ys frontX backX frontY backY : List Node}

/-- A swap is made of two spans that are apart, whichever handle has which. -/
theorem swap_ok_of_spans (hf : m.forest.Closed)
    (spans : m.span a = .ok x ∧ m.span b = .ok y ∨ m.span a = .ok y ∧ m.span b = .ok x)
    (hx : m.forest.nodes? x = some xs) (hy : m.forest.nodes? y = some ys)
    (ho : x.overlaps y = false) (apartX : ¬m.forest.ReachedFrom xs y.seq)
    (apartY : ¬m.forest.ReachedFrom ys x.seq) :
    ∃ m' s t ss ts frontS backS frontT backT, swap a b m = .ok () m' ∧
      Swapped m m' a b s t ss ts frontS backS frontT backT ∧
      (s = x ∧ t = y ∧ ss = xs ∧ ts = ys ∨ s = y ∧ t = x ∧ ss = ys ∧ ts = xs) := by
  obtain ⟨m', s, t, ss, ts, fs, bs, ft, bt, hswap, hdone, horder⟩ :
      ∃ m' s t ss ts frontS backS frontT backT, swap a b m = .ok () m' ∧
        Swapped m m' a b s t ss ts frontS backS frontT backT ∧
        (s = x ∧ t = y ∨ s = y ∧ t = x) := by
    rcases spans with ⟨ha, hb⟩ | ⟨ha, hb⟩
    · obtain ⟨m', -, -, -, -, -, -, -, -, hswap, -⟩ := swap_ok hf ha hb hx hy ho apartX apartY
      obtain ⟨s, t, ss, ts, fs, bs, ft, bt, hdone, hst⟩ := swapped_of_swap hf hswap ha hb
      exact ⟨m', s, t, ss, ts, fs, bs, ft, bt, hswap, hdone, hst⟩
    · obtain ⟨m', -, -, -, -, -, -, -, -, hswap, -⟩ :=
        swap_ok hf ha hb hy hx ((Span.overlaps_comm y x).trans ho) apartY apartX
      obtain ⟨s, t, ss, ts, fs, bs, ft, bt, hdone, hst⟩ := swapped_of_swap hf hswap ha hb
      exact ⟨m', s, t, ss, ts, fs, bs, ft, bt, hswap, hdone, hst.symm⟩
  obtain ⟨hns, hnt⟩ := hdone.nodes_before
  refine ⟨m', s, t, ss, ts, fs, bs, ft, bt, hswap, hdone, ?_⟩
  rcases horder with ⟨rfl, rfl⟩ | ⟨rfl, rfl⟩
  · exact .inl ⟨rfl, rfl, Option.some.inj (hns.symm.trans hx), Option.some.inj (hnt.symm.trans hy)⟩
  · exact .inr ⟨rfl, rfl, Option.some.inj (hns.symm.trans hy), Option.some.inj (hnt.symm.trans hx)⟩

/-- The match `k` is where `m` was before two swaps of the spans `x` and `y`. -/
structure Returned (m k : Match) (x y : Span) : Prop where
  forest : k.forest = m.forest
  first : ∀ h, m.span h = .ok x → k.span h = .ok (x.returned y)
  second : ∀ h, m.span h = .ok y → k.span h = .ok (y.returned x)

section Again

variable (hf : m'.forest.Closed) (hs : Swapped m m' a b x y xs ys frontX backX frontY backY)
include hf hs

/-- A swap between two sequences is undone by the same swap. -/
theorem Swapped.again_across (ha : m.forest.Acyclic) (ne : x.seq ≠ y.seq) :
    ∃ k, swap a b m' = .ok () k ∧ Returned m k x y := by
  have ex := hs.exchanged ne
  have back := ex.symm ha
  have hfirst : ∀ h, m.span h = .ok x → m'.span h = .ok ⟨y.seq, y.start, x.length⟩ :=
    fun h hu => hs.span hu (Span.whenSwapped_first ne)
  have hsecond : ∀ h, m.span h = .ok y → m'.span h = .ok ⟨x.seq, x.start, y.length⟩ :=
    fun h hu => hs.span hu (Span.whenSwapped_second ne)
  have hnodesX : m'.forest.nodes? ⟨y.seq, y.start, x.length⟩ = some xs :=
    Forest.nodes?_eq_some_iff.2 ⟨frontY, backY, ex.children_b, hs.startY, hs.lengthX⟩
  have hnodesY : m'.forest.nodes? ⟨x.seq, x.start, y.length⟩ = some ys :=
    Forest.nodes?_eq_some_iff.2 ⟨frontX, backX, ex.second.after, hs.startX, hs.lengthY⟩
  have ho : Span.overlaps ⟨y.seq, y.start, x.length⟩ ⟨x.seq, x.start, y.length⟩ = false := by
    simp [Span.overlaps, ne.symm]
  obtain ⟨k, s, t, ss, ts, fs, bs, ft, bt, hswap, hdone, horder⟩ :=
    swap_ok_of_spans hf (hs.spans.imp (fun h => ⟨hfirst a h.1, hsecond b h.2⟩)
      fun h => ⟨hsecond a h.1, hfirst b h.2⟩) hnodesX hnodesY ho back.apartX back.apartY
  have hapart : ∀ {u v : Span}, u.seq ≠ v.seq → u.returned v = u := fun ne =>
    Span.returned_of_not_heads fun h => ne h.1
  refine ⟨k, hswap, ?_, fun h hu => ?_, fun h hu => ?_⟩
  · rcases horder with ⟨rfl, rfl, rfl, rfl⟩ | ⟨rfl, rfl, rfl, rfl⟩
    · exact hs.traded.eq_of_back_across (hdone.traded.symm ne.symm) ne rfl rfl rfl rfl
    · exact hs.traded.eq_of_back_across hdone.traded ne rfl rfl rfl rfl
  · rw [hapart ne]
    rcases horder with ⟨rfl, rfl, -⟩ | ⟨rfl, rfl, -⟩
    · exact hdone.span (hfirst h hu) (Span.whenSwapped_first ne.symm)
    · exact hdone.span (hfirst h hu) (Span.whenSwapped_second ne)
  · rw [hapart ne.symm]
    rcases horder with ⟨rfl, rfl, -⟩ | ⟨rfl, rfl, -⟩
    · exact hdone.span (hsecond h hu) (Span.whenSwapped_second ne.symm)
    · exact hdone.span (hsecond h hu) (Span.whenSwapped_first ne)

omit hf in
/-- The second of two spans of one sequence does not lie at the start of the first. -/
theorem Swapped.not_heads (e : x.seq = y.seq) : ¬y.Heads x := by
  rintro ⟨-, -, hstart, hpos⟩
  have hle := hs.order e
  simp only [Span.stop] at hle
  omega

omit hf in
/-- A swap with an empty span at the end of the first changes nothing. -/
theorem Swapped.of_tail (e : x.seq = y.seq) (hin : x.encloses y = true) :
    m'.forest = m.forest ∧ (∀ h, m.span h = .ok x → m'.span h = .ok x) ∧
      ∀ h, m.span h = .ok y → m'.span h = .ok y := by
  obtain ⟨-, -, hstop⟩ := Span.encloses_iff.1 hin
  have hle := hs.order e
  obtain ⟨hfirst, hsecond⟩ := Span.whenSwapped_tail e hle hin
  refine ⟨hs.traded.eq_of_tail e ?_ ?_, fun h hu => hs.span hu hfirst,
    fun h hu => hs.span hu hsecond⟩
  · simp only [Span.stop] at hle hstop
    omega
  · simp only [Span.stop] at hle hstop ⊢
    omega

/-- Neither does the same swap then. -/
theorem Swapped.again_tail (e : x.seq = y.seq) (hin : x.encloses y = true) :
    ∃ k, swap a b m' = .ok () k ∧ Returned m k x y := by
  obtain ⟨hforest, hfirst, hsecond⟩ := hs.of_tail e hin
  obtain ⟨hnx, hny⟩ := hs.nodes_before
  have hle := hs.order e
  obtain ⟨-, hl, hr⟩ := Span.encloses_iff.1 hin
  have ho : x.overlaps y = false := by
    simp only [Span.overlaps, decide_eq_false_iff_not]
    omega
  obtain ⟨k, s, t, ss, ts, fs, bs, ft, bt, hswap, hdone, horder⟩ :=
    swap_ok_of_spans hf (hs.spans.imp (fun h => ⟨hfirst a h.1, hsecond b h.2⟩)
      fun h => ⟨hsecond a h.1, hfirst b h.2⟩) (hforest ▸ hnx) (hforest ▸ hny) ho
      (hforest ▸ hs.apartX) (hforest ▸ hs.apartY)
  have hreturned : x.returned y = x ∧ y.returned x = y := by
    refine ⟨Span.returned_of_not_heads ?_, Span.returned_of_not_heads (hs.not_heads e)⟩
    rintro ⟨-, -, hstart, hpos⟩
    simp only [Span.stop] at hle hr
    omega
  refine ⟨k, hswap, ?_⟩
  rcases horder with ⟨rfl, rfl, -⟩ | ⟨rfl, rfl, -⟩
  · obtain ⟨hforest', hfirst', hsecond'⟩ := hdone.of_tail e hin
    refine ⟨hforest'.trans hforest, fun h hu => ?_, fun h hu => ?_⟩
    · rw [hreturned.1]
      exact hfirst' h (hfirst h hu)
    · rw [hreturned.2]
      exact hsecond' h (hsecond h hu)
  · -- In the other order both are empty and lie at one place.
    have hle' := hdone.order e.symm
    have hin' : s.encloses t = true := by
      rw [Span.encloses_iff]
      simp only [Span.stop] at hle hle' hr ⊢
      exact ⟨e.symm, by omega, by omega⟩
    obtain ⟨hforest', hfirst', hsecond'⟩ := hdone.of_tail e.symm hin'
    refine ⟨hforest'.trans hforest, fun h hu => ?_, fun h hu => ?_⟩
    · rw [hreturned.1]
      exact hsecond' h (hfirst h hu)
    · rw [hreturned.2]
      exact hfirst' h (hsecond h hu)

/-- In one sequence the same swap brings the nodes back, and the handles with them but for an empty
span at the start of the other. -/
theorem Swapped.again_within (hacyclic : m'.forest.Acyclic) (e : x.seq = y.seq)
    (hout : ¬x.encloses y = true) : ∃ k, swap a b m' = .ok () k ∧ Returned m k x y := by
  obtain ⟨front, between, back, -, hc, hstart, hlengthX, hbetween, hlengthY⟩ := hs.traded.within e
  have hle := hs.order e
  simp only [Span.stop] at hbetween hle
  have hfirst : ∀ h, m.span h = .ok x →
      m'.span h = .ok ⟨x.seq, y.start + y.length - x.length, x.length⟩ :=
    fun h hu => hs.span hu (Span.whenSwapped_first_within e)
  have hsecond : ∀ h, m.span h = .ok y → m'.span h = .ok ⟨x.seq, x.start, y.length⟩ :=
    fun h hu => hs.span hu (Span.whenSwapped_second_within e hout)
  have hnodesX : m'.forest.nodes? ⟨x.seq, y.start + y.length - x.length, x.length⟩ = some xs := by
    refine Forest.nodes?_eq_some_iff.2 ⟨front ++ ys ++ between, back, hc, ?_, hlengthX⟩
    simp only [List.length_append]
    omega
  have hnodesY : m'.forest.nodes? ⟨x.seq, x.start, y.length⟩ = some ys := by
    refine Forest.nodes?_eq_some_iff.2 ⟨front, between ++ xs ++ back, ?_, hstart, hlengthY⟩
    rw [hc]
    simp only [List.append_assoc]
  have hself := hacyclic.not_reachedFrom hc
  obtain ⟨k, s, t, ss, ts, fs, bs, ft, bt, hswap, hdone, horder⟩ :=
    swap_ok_of_spans hf (hs.spans.symm.imp (fun h => ⟨hsecond a h.1, hfirst b h.2⟩)
      fun h => ⟨hfirst a h.1, hsecond b h.2⟩) hnodesY hnodesX
      (by simp only [Span.overlaps, Span.stop, decide_eq_false_iff_not]; omega)
      (fun hr => hself (hr.mono fun n hn => by simp [hn]))
      fun hr => hself (hr.mono fun n hn => by simp [hn])
  obtain ⟨rfl, rfl, rfl, rfl⟩ | ⟨rfl, rfl, rfl, rfl⟩ := horder
  · obtain ⟨hback, hback'⟩ := Span.whenSwapped_back e hle hout
    refine ⟨k, hswap, ?_, fun h hu => hdone.span (hfirst h hu) hback', fun h hu => ?_⟩
    · refine hs.traded.eq_of_back_within hdone.traded e rfl rfl rfl ?_
      simp only [Span.stop]
      omega
    · rw [Span.returned_of_not_heads (hs.not_heads e)]
      exact hdone.span (hsecond h hu) hback
  · -- In the other order both are empty and lie at one place, where one encloses the other.
    have hle' := hdone.order rfl
    simp only [Span.stop] at hle'
    refine absurd (Span.encloses_iff.2 ⟨e, by omega, ?_⟩) hout
    simp only [Span.stop]
    omega

/-- After the same swap again everything is where it was, but for an empty span at the start of the
other. -/
theorem Swapped.again (ha : m.forest.Acyclic) (ha' : m'.forest.Acyclic) :
    ∃ k, swap a b m' = .ok () k ∧ Returned m k x y := by
  by_cases e : x.seq = y.seq
  · by_cases hin : x.encloses y = true
    · exact hs.again_tail hf e hin
    · exact hs.again_within hf ha' e hin
  · exact hs.again_across hf ha e

end Again

section Found

variable {items : List Pattern} {p : Program} {f : Forest} {seq : SeqName} {start id : Nat}
  {found : Captures}

/-- After any run of operations on a match just found, a swap that is made can be made again. The
forest and the nodes of the two handles are then what they were before both, and so are the two
spans, unless one of them is empty and lies where the other, which is not, begins in the same
sequence. -/
theorem swap_twice_restores_iff (hp : Program.compileAll items = .ok p) (hf : f.Closed)
    (ha : f.Acyclic) (hc : f.contains seq = true) (hm : p.match? f seq start = .ok (some found))
    (run : Run (fun _ => True) (ofCaptures id p f found) m) (hswap : swap a b m = .ok () m')
    (hs : m.span a = .ok s) (ht : m.span b = .ok t) :
    ∃ k, swap a b m' = .ok () k ∧ k.forest = m.forest ∧ k.content a = m.content a ∧
      k.content b = m.content b ∧
      (k.span a = m.span a ∧ k.span b = m.span b ↔ ¬s.Heads t ∧ ¬t.Heads s) := by
  obtain ⟨hclosed, hacyclic, hnodes⟩ := content_of_run hp hf ha hc hm run
  obtain ⟨hclosed', hacyclic', -⟩ :=
    content_of_run hp hf ha hc hm (run.made (.swap a b) trivial hswap)
  obtain ⟨x, y, xs, ys, fx, bx, fy, by', hdone, hxy⟩ := swapped_of_swap hclosed hswap hs ht
  obtain ⟨k, hagain, hreturned⟩ := hdone.again hclosed' hacyclic hacyclic'
  have hspans : k.span a = .ok (s.returned t) ∧ k.span b = .ok (t.returned s) := by
    rcases hxy with ⟨rfl, rfl⟩ | ⟨rfl, rfl⟩
    · exact ⟨hreturned.first a hs, hreturned.second b ht⟩
    · exact ⟨hreturned.second a hs, hreturned.first b ht⟩
  obtain ⟨ss, hns⟩ := hnodes a s hs
  obtain ⟨ts, hnt⟩ := hnodes b t ht
  have hca : m.content a = .ok ss := content_eq_ok_iff.2 ⟨s, hs, hns⟩
  have hcb : m.content b = .ok ts := content_eq_ok_iff.2 ⟨t, ht, hnt⟩
  obtain ⟨hca', hcb'⟩ := contents_of_swap hclosed hswap hca hcb
  obtain ⟨hca'', hcb''⟩ := contents_of_swap hclosed' hagain hca' hcb'
  refine ⟨k, hagain, hreturned.forest, hca''.trans hca.symm, hcb''.trans hcb.symm, ?_⟩
  rw [hspans.1, hspans.2, hs, ht, Except.ok.injEq, Except.ok.injEq, Span.returned_eq_self_iff,
    Span.returned_eq_self_iff]

/-- Two nodes are swapped with one behind them and then swapped back. -/
theorem swap_twice_restores_behind :
    let items : List Pattern := [.named "x" [.any, .any], .any, .named "y" [.any]]
    let f := Forest.ofValue (.seq [.scalar .null, .scalar (.bool true), .scalar (.bool false),
      .seq []])
    let m := ofCaptures 0 (Program.ofItems items) f
      ⟨⟨⟨1⟩, 0, 4⟩, [some ⟨⟨1⟩, 0, 2⟩, some ⟨⟨1⟩, 3, 1⟩]⟩
    let swapped := Operation.after (.swap ⟨0, 1⟩ ⟨0, 2⟩) m
    swap ⟨0, 1⟩ ⟨0, 2⟩ m = .ok () swapped ∧ m.span ⟨0, 1⟩ = .ok ⟨⟨1⟩, 0, 2⟩ ∧
      m.span ⟨0, 2⟩ = .ok ⟨⟨1⟩, 3, 1⟩ ∧
      ∃ k, swap ⟨0, 1⟩ ⟨0, 2⟩ swapped = .ok () k ∧ k.forest = f ∧
        k.span ⟨0, 1⟩ = .ok ⟨⟨1⟩, 0, 2⟩ ∧ k.span ⟨0, 2⟩ = .ok ⟨⟨1⟩, 3, 1⟩ := by
  intro items f m swapped
  have hcompiled : Program.compileAll items = .ok (Program.ofItems items) := by rfl
  have hmatch : (Program.ofItems items).match? f f.root 0 =
      .ok (some ⟨⟨⟨1⟩, 0, 4⟩, [some ⟨⟨1⟩, 0, 2⟩, some ⟨⟨1⟩, 3, 1⟩]⟩) := by rfl
  have hswap : swap ⟨0, 1⟩ ⟨0, 2⟩ m = .ok () swapped :=
    edit_eq_ok_after (.swap ⟨0, 1⟩ ⟨0, 2⟩) (by decide +kernel)
  have hx : m.span ⟨0, 1⟩ = .ok ⟨⟨1⟩, 0, 2⟩ := by rfl
  have hy : m.span ⟨0, 2⟩ = .ok ⟨⟨1⟩, 3, 1⟩ := by rfl
  obtain ⟨k, hagain, hforest, -, -, hiff⟩ :=
    swap_twice_restores_iff hcompiled (Forest.closed_ofValue _) (Forest.acyclic_ofValue _)
      (Forest.contains_root_ofValue _) hmatch .refl hswap hx hy
  obtain ⟨hfirst, hsecond⟩ := hiff.2 (by decide)
  exact ⟨hswap, hx, hy, k, hagain, hforest, hfirst.trans hx, hsecond.trans hy⟩

/-- An emptied capture is swapped with the one behind it, twice. It comes to the end of that one
and stays there. -/
theorem swap_twice_leaves_emptied :
    let items : List Pattern := [.named "x" [.any], .named "y" [.any]]
    let f := Forest.ofValue (.seq [.scalar (.int 1), .scalar (.int 2)])
    let m := ofCaptures 0 (Program.ofItems items) f
      ⟨⟨⟨0⟩, 0, 2⟩, [some ⟨⟨0⟩, 0, 1⟩, some ⟨⟨0⟩, 1, 1⟩]⟩
    let emptied := Operation.after (.putValues ⟨0, 1⟩ []) m
    let once := Operation.after (.swap ⟨0, 1⟩ ⟨0, 2⟩) emptied
    let twice := Operation.after (.swap ⟨0, 1⟩ ⟨0, 2⟩) once
    f.Closed ∧ f.Acyclic ∧
      (Program.ofItems items).match? f f.root 0 =
        .ok (some ⟨⟨⟨0⟩, 0, 2⟩, [some ⟨⟨0⟩, 0, 1⟩, some ⟨⟨0⟩, 1, 1⟩]⟩) ∧
      Run (fun _ => True) m emptied ∧ swap ⟨0, 1⟩ ⟨0, 2⟩ emptied = .ok () once ∧
      swap ⟨0, 1⟩ ⟨0, 2⟩ once = .ok () twice ∧
      emptied.span ⟨0, 1⟩ = .ok ⟨⟨0⟩, 0, 0⟩ ∧ emptied.span ⟨0, 2⟩ = .ok ⟨⟨0⟩, 0, 1⟩ ∧
      once.span ⟨0, 1⟩ = .ok ⟨⟨0⟩, 1, 0⟩ ∧ once.span ⟨0, 2⟩ = .ok ⟨⟨0⟩, 0, 1⟩ ∧
      twice.span ⟨0, 1⟩ = .ok ⟨⟨0⟩, 1, 0⟩ ∧ twice.span ⟨0, 1⟩ ≠ emptied.span ⟨0, 1⟩ := by
  intro items f m emptied once twice
  refine ⟨Forest.closed_ofValue _, Forest.acyclic_ofValue _, by rfl, .single ⟨_, trivial, rfl⟩,
    edit_eq_ok_after (.swap ⟨0, 1⟩ ⟨0, 2⟩) (by decide +kernel),
    edit_eq_ok_after (.swap ⟨0, 1⟩ ⟨0, 2⟩) (by decide +kernel), ?_⟩
  decide +kernel

end Found

end Match

end NestedRegex
