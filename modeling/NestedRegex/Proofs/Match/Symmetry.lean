import NestedRegex.Proofs.Match.Returns

namespace NestedRegex

/-- Two spans of different sequences send every span the same way in either order. -/
theorem Span.whenSwapped_comm {x y : Span} (ne : x.seq ≠ y.seq) (u : Span) :
    u.whenSwapped y x = u.whenSwapped x y := by
  rw [whenSwapped, if_neg ne.symm, whenSwapped, if_neg ne, whenExchanged, whenExchanged]
  by_cases hx : u.seq = x.seq
  · have hy : u.seq ≠ y.seq := fun e => ne (hx.symm.trans e)
    simp only [if_neg (not_encloses_of_seq_ne hy), if_neg (not_encloses_of_seq_ne hy.symm),
      if_neg hy, if_pos hx]
  · simp only [if_neg (not_encloses_of_seq_ne hx), if_neg (not_encloses_of_seq_ne (Ne.symm hx)),
      if_neg hx]
    by_cases hy : u.seq = y.seq
    · simp only [if_pos hy]
    · simp only [if_neg hy, whenReplaced_elsewhere hx, whenReplaced_elsewhere hy]

namespace Match

variable {m m' m'' : Match} {a b : Handle} {x y s t : Span}
  {xs ys frontX backX frontY backY ss ts frontS backS frontT backT : List Node}

/-- The spans of a swap do not overlap. -/
theorem Swapped.not_overlaps (hs : Swapped m m' a b x y xs ys frontX backX frontY backY) :
    x.overlaps y = false := by
  simp only [Span.overlaps, decide_eq_false_iff_not, not_and, not_lt]
  intro e hlt
  exact hs.order e

/-- Two swaps of one match leave the same match if they exchange the same nodes and send every span
the same way. -/
theorem Swapped.unique (hs : Swapped m m' a b x y xs ys frontX backX frontY backY)
    (hs' : Swapped m m'' b a s t ss ts frontS backS frontT backT)
    (traded : m.forest.Traded m''.forest x y xs ys)
    (hmove : ∀ u : Span, u.whenSwapped s t = u.whenSwapped x y) : m'' = m' := by
  have hforest := hs.traded.unique traded
  rw [hs.result, hs'.result] at hforest ⊢
  dsimp only at hforest
  simp only [hforest, hmove]

/-- A swap that is made is made the other way too, and leaves the same match. -/
theorem swap_flip (hf : m.forest.Closed) (hswap : swap a b m = .ok () m') :
    swap b a m = .ok () m' := by
  rcases swap_cases hf a b with ⟨e, he⟩ | ⟨k, x, y, xs, ys, _, _, _, _, hrun, hs⟩
  · rw [hswap] at he
    cases he
  obtain rfl : k = m' := by
    rw [hswap] at hrun
    cases hrun
    rfl
  obtain ⟨hx, hy⟩ := hs.nodes_before
  obtain ⟨m'', s, t, ss, ts, _, _, _, _, hback, hs', horder⟩ :=
    swap_ok_of_spans hf (hs.spans.symm.imp And.symm And.symm) hx hy hs.not_overlaps hs.apartX
      hs.apartY
  obtain rfl : m'' = k := by
    rcases horder with ⟨rfl, rfl, rfl, rfl⟩ | ⟨rfl, rfl, rfl, rfl⟩
    · exact hs.unique hs' hs'.traded fun u => rfl
    · by_cases e : s.seq = t.seq
      · -- Each of the two spans stops before the other, so that they are one empty span.
        have hst := hs'.order e
        have hts := hs.order e.symm
        simp only [Span.stop] at hst hts
        obtain rfl : s = t := by
          have hstart : s.start = t.start := by omega
          have hlength : s.length = t.length := by omega
          cases s
          cases t
          simp_all only
        obtain rfl := Option.some.inj (hx.symm.trans hy)
        exact hs.unique hs' hs'.traded fun u => rfl
      · exact hs.unique hs' (hs'.traded.symm e) (Span.whenSwapped_comm (Ne.symm e))
  exact hback

section Found

variable {items : List Pattern} {p : Program} {f : Forest} {seq : SeqName} {start id : Nat}
  {found : Captures}

/-- After any run of operations on a match just found, a swap of two handles is made just if it is
made the other way, and the match that is left is the same: the same forest, and the same span for
every handle, held or lost. -/
theorem swap_comm (hp : Program.compileAll items = .ok p) (hf : f.Closed) (ha : f.Acyclic)
    (hc : f.contains seq = true) (hm : p.match? f seq start = .ok (some found))
    (run : Run (fun _ => True) (ofCaptures id p f found) m) (a b : Handle) (m' : Match) :
    swap a b m = .ok () m' ↔ swap b a m = .ok () m' := by
  obtain ⟨hclosed, -, -⟩ := content_of_run hp hf ha hc hm run
  exact ⟨swap_flip hclosed, swap_flip hclosed⟩

/-- An emptied capture is swapped with a node of another sequence, in either order. -/
theorem swap_comm_emptied :
    let items : List Pattern :=
      [.named "x" [.any], .named "y" [.any], .sequence [.named "z" [.any]]]
    let f := Forest.ofValue (.seq [.scalar (.int 1), .scalar (.int 2), .seq [.scalar (.int 3)]])
    let m := ofCaptures 0 (Program.ofItems items) f
      ⟨⟨⟨1⟩, 0, 3⟩, [some ⟨⟨1⟩, 0, 1⟩, some ⟨⟨1⟩, 1, 1⟩, some ⟨⟨0⟩, 0, 1⟩]⟩
    let emptied := Operation.after (.putValues ⟨0, 1⟩ []) m
    let swapped := Operation.after (.swap ⟨0, 1⟩ ⟨0, 3⟩) emptied
    swap ⟨0, 1⟩ ⟨0, 3⟩ emptied = .ok () swapped ∧ swap ⟨0, 3⟩ ⟨0, 1⟩ emptied = .ok () swapped ∧
      swapped.span ⟨0, 1⟩ = .ok ⟨⟨0⟩, 0, 0⟩ ∧ swapped.span ⟨0, 3⟩ = .ok ⟨⟨1⟩, 0, 1⟩ := by
  intro items f m emptied swapped
  have hcompiled : Program.compileAll items = .ok (Program.ofItems items) := by rfl
  have hmatch : (Program.ofItems items).match? f f.root 0 =
      .ok (some ⟨⟨⟨1⟩, 0, 3⟩, [some ⟨⟨1⟩, 0, 1⟩, some ⟨⟨1⟩, 1, 1⟩, some ⟨⟨0⟩, 0, 1⟩]⟩) := by rfl
  have hrun : Run (fun _ => True) m emptied := .single ⟨_, trivial, rfl⟩
  have hswap : swap ⟨0, 1⟩ ⟨0, 3⟩ emptied = .ok () swapped :=
    edit_eq_ok_after (.swap ⟨0, 1⟩ ⟨0, 3⟩) (by decide +kernel)
  have hflip := (swap_comm hcompiled (Forest.closed_ofValue _) (Forest.acyclic_ofValue _)
    (Forest.contains_root_ofValue _) hmatch hrun _ _ _).1 hswap
  exact ⟨hswap, hflip, by decide +kernel, by decide +kernel⟩

end Found

end Match

end NestedRegex
