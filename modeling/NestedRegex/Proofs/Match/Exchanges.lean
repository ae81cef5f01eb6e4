import NestedRegex.Proofs.Forest.Trades
import NestedRegex.Proofs.Match.Swaps

namespace NestedRegex

/-- A span in another sequence than those of an exchange stays. -/
theorem Span.whenSwapped_elsewhere {u x y : Span} (hx : u.seq ≠ x.seq) (hy : u.seq ≠ y.seq) :
    u.whenSwapped x y = some u := by
  unfold whenSwapped
  split
  · rw [whenExchangedWithin, if_pos hx]
  · rw [whenExchanged, if_neg (not_encloses_of_seq_ne hx.symm),
      if_neg (not_encloses_of_seq_ne hy.symm), if_neg (not_encloses_of_seq_ne hx),
      if_neg (not_encloses_of_seq_ne hy), if_neg hx, whenReplaced_elsewhere hy]

namespace Match

variable {m m' : Match} {a b h : Handle} {s t u x y : Span}
  {xs ys nodes frontX backX frontY backY : List Node}

theorem Swapped.traded (hs : Swapped m m' a b x y xs ys frontX backX frontY backY) :
    Forest.Traded m.forest m'.forest x y xs ys where
  size := by
    rw [hs.result]
    simp only [Forest.size_setChildren]
  root := by
    rw [hs.result]
    rfl
  other id hx hy := by
    by_cases e : x.seq = y.seq
    · obtain ⟨between, sp⟩ := hs.turned e
      exact sp.other id hy
    · exact (hs.exchanged e).other id hx hy
  within e := by
    obtain ⟨between, sp⟩ := hs.turned e
    refine ⟨frontX, between, backY, ?_, ?_, hs.startX, hs.lengthX, hs.between sp, hs.lengthY⟩
    · rw [e, sp.before]
      simp only [List.append_assoc]
    · rw [e, sp.after]
      simp only [List.append_assoc]
  across ne := by
    have ex := hs.exchanged ne
    exact ⟨⟨frontX, backX, ex.children_a, ex.second.after, hs.startX, hs.lengthX⟩,
      ⟨frontY, backY, ex.first.before, ex.children_b, hs.startY, hs.lengthY⟩⟩

/-- A handle inside one of the two spans goes with its nodes. -/
theorem Swapped.content_inside (hs : Swapped m m' a b x y xs ys frontX backX frontY backY)
    (hu : m.span h = .ok u) (hn : m.forest.nodes? u = some nodes)
    (hin : x.encloses u = true ∨ y.encloses u = true) : m'.content h = .ok nodes := by
  obtain ⟨t, ht, hg⟩ : ∃ t, u.whenSwapped x y = some t ∧ m'.forest.nodes? t = some nodes := by
    unfold Span.whenSwapped
    by_cases e : x.seq = y.seq
    · obtain ⟨between, sp⟩ := hs.turned e
      have hstart := hs.between sp
      rw [← e] at sp
      rw [if_pos e]
      exact Forest.nodes?_whenExchangedWithin_inside sp hs.startX hs.lengthX hstart hs.lengthY hn e
        hin
    · rw [if_neg e]
      exact Forest.nodes?_whenExchanged_inside (hs.exchanged e) hs.startX hs.lengthX hs.startY
        hs.lengthY hn hin
  exact content_eq_ok_iff.2 ⟨t, hs.span hu ht, hg⟩

/-- The nodes of the two spans before the exchange. -/
theorem Swapped.nodes_before (hs : Swapped m m' a b x y xs ys frontX backX frontY backY) :
    m.forest.nodes? x = some xs ∧ m.forest.nodes? y = some ys := by
  refine ⟨?_, Forest.nodes?_eq_some_iff.2 ⟨frontY, backY, hs.beforeY, hs.startY, hs.lengthY⟩⟩
  by_cases e : x.seq = y.seq
  · obtain ⟨front, between, back, hc, -, hstart, hlength, -⟩ := hs.traded.within e
    refine Forest.nodes?_eq_some_iff.2 ⟨front, between ++ ys ++ back, ?_, hstart, hlength⟩
    rw [hc]
    simp only [List.append_assoc]
  · obtain ⟨front, back, hc, -, hstart, hlength⟩ := (hs.traded.across e).1
    exact Forest.nodes?_eq_some_iff.2 ⟨front, back, hc, hstart, hlength⟩

/-- So does a handle inside one of the spans of a swap that is made. -/
theorem content_of_swap (hf : m.forest.Closed) (hswap : swap a b m = .ok () m')
    (hs : m.span a = .ok s) (ht : m.span b = .ok t) (hn : m.content h = .ok nodes)
    (hu : m.span h = .ok u) (hin : s.encloses u = true ∨ t.encloses u = true) :
    m'.content h = .ok nodes := by
  obtain ⟨u', hu', hnodes⟩ := content_eq_ok_iff.1 hn
  obtain rfl : u' = u := Except.ok.inj (hu'.symm.trans hu)
  obtain ⟨x, y, xs, ys, fx, bx, fy, by', hdone, hxy⟩ := swapped_of_swap hf hswap hs ht
  refine hdone.content_inside hu hnodes ?_
  rcases hxy with ⟨rfl, rfl⟩ | ⟨rfl, rfl⟩
  · exact hin
  · exact hin.symm

/-- The two handles of a swap have their nodes afterwards. -/
theorem contents_of_swap {ss ts : List Node} (hf : m.forest.Closed) (hswap : swap a b m = .ok () m')
    (ha : m.content a = .ok ss) (hb : m.content b = .ok ts) :
    m'.content a = .ok ss ∧ m'.content b = .ok ts := by
  obtain ⟨s, hs, -⟩ := content_eq_ok_iff.1 ha
  obtain ⟨t, ht, -⟩ := content_eq_ok_iff.1 hb
  exact ⟨content_of_swap hf hswap hs ht ha hs (.inl (Span.encloses_refl s)),
    content_of_swap hf hswap hs ht hb ht (.inr (Span.encloses_refl t))⟩

section Found

variable {items : List Pattern} {p : Program} {f : Forest} {seq : SeqName} {start id : Nat}
  {found : Captures}

/-- After any run of operations on a match just found, a swap that is made exchanges the nodes of
its two handles, in their order if they lie in one sequence, and changes nothing else in the forest.
The two handles and every handle inside one of them are valid afterwards and have the nodes that
they had, and handles in other sequences keep their spans. -/
theorem swap_exchanges_nodes (hp : Program.compileAll items = .ok p) (hf : f.Closed)
    (ha : f.Acyclic) (hc : f.contains seq = true) (hm : p.match? f seq start = .ok (some found))
    (run : Run (fun _ => True) (ofCaptures id p f found) m) (hswap : swap a b m = .ok () m')
    (hs : m.span a = .ok s) (ht : m.span b = .ok t) :
    ∃ ss ts, m.content a = .ok ss ∧ m.content b = .ok ts ∧
      (m.forest.Traded m'.forest s t ss ts ∨ m.forest.Traded m'.forest t s ts ss) ∧
      (m'.isValid a = true ∧ m'.content a = .ok ss) ∧
      (m'.isValid b = true ∧ m'.content b = .ok ts) ∧
      (∀ h u, m.span h = .ok u → s.encloses u = true ∨ t.encloses u = true →
        ∃ nodes, m.content h = .ok nodes ∧ m'.isValid h = true ∧ m'.content h = .ok nodes) ∧
      ∀ h u, m.span h = .ok u → u.seq ≠ s.seq → u.seq ≠ t.seq → m'.span h = .ok u := by
  obtain ⟨hclosed, -, hnodes⟩ := content_of_run hp hf ha hc hm run
  obtain ⟨x, y, xs, ys, fx, bx, fy, by', hdone, hxy⟩ := swapped_of_swap hclosed hswap hs ht
  obtain ⟨hnx, hny⟩ := hdone.nodes_before
  have hinside : ∀ {h u}, m.span h = .ok u → s.encloses u = true ∨ t.encloses u = true →
      ∃ nodes, m.content h = .ok nodes ∧ m'.isValid h = true ∧ m'.content h = .ok nodes := by
    intro h u hu hin
    obtain ⟨nodes, hn⟩ := hnodes h u hu
    have hbefore : m.content h = .ok nodes := content_eq_ok_iff.2 ⟨u, hu, hn⟩
    have hafter := content_of_swap hclosed hswap hs ht hbefore hu hin
    exact ⟨nodes, hbefore, isValid_of_content hafter, hafter⟩
  have helsewhere : ∀ h u, m.span h = .ok u → u.seq ≠ s.seq → u.seq ≠ t.seq →
      m'.span h = .ok u := by
    intro h u hu hus hut
    refine hdone.span hu (Span.whenSwapped_elsewhere ?_ ?_)
    · rcases hxy with ⟨rfl, -⟩ | ⟨rfl, -⟩
      · exact hus
      · exact hut
    · rcases hxy with ⟨-, rfl⟩ | ⟨-, rfl⟩
      · exact hut
      · exact hus
  obtain ⟨ss, hss, hvalidA, hafterA⟩ := hinside hs (.inl (Span.encloses_refl s))
  obtain ⟨ts, hts, hvalidB, hafterB⟩ := hinside ht (.inr (Span.encloses_refl t))
  refine ⟨ss, ts, hss, hts, ?_, ⟨hvalidA, hafterA⟩, ⟨hvalidB, hafterB⟩, fun h u => hinside,
    helsewhere⟩
  have hcontent : ∀ {h : Handle} {u : Span} {nodes nodes' : List Node}, m.span h = .ok u →
      m.forest.nodes? u = some nodes → m.content h = .ok nodes' → nodes = nodes' :=
    fun hu hn hn' => Except.ok.inj ((content_eq_ok_iff.2 ⟨_, hu, hn⟩).symm.trans hn')
  rcases hxy with ⟨rfl, rfl⟩ | ⟨rfl, rfl⟩
  · obtain rfl := hcontent hs hnx hss
    obtain rfl := hcontent ht hny hts
    exact .inl hdone.traded
  · obtain rfl := hcontent ht hnx hts
    obtain rfl := hcontent hs hny hss
    exact .inr hdone.traded

/-- Two nodes are swapped with one behind them, and a capture inside of them goes with them. -/
theorem swap_exchanges_nodes_inside :
    let items : List Pattern :=
      [.named "x" [.named "w" [.any], .any], .any, .named "y" [.any]]
    let f := Forest.ofValue (.seq [.scalar .null, .scalar (.bool true), .scalar (.bool false),
      .seq []])
    let m := ofCaptures 0 (Program.ofItems items) f
      ⟨⟨⟨1⟩, 0, 4⟩, [some ⟨⟨1⟩, 0, 2⟩, some ⟨⟨1⟩, 0, 1⟩, some ⟨⟨1⟩, 3, 1⟩]⟩
    let swapped := Operation.after (.swap ⟨0, 1⟩ ⟨0, 3⟩) m
    swap ⟨0, 1⟩ ⟨0, 3⟩ m = .ok () swapped ∧ m.span ⟨0, 1⟩ = .ok ⟨⟨1⟩, 0, 2⟩ ∧
      m.span ⟨0, 2⟩ = .ok ⟨⟨1⟩, 0, 1⟩ ∧ m.span ⟨0, 3⟩ = .ok ⟨⟨1⟩, 3, 1⟩ ∧
      ∃ ss ts, m.content ⟨0, 1⟩ = .ok ss ∧ m.content ⟨0, 3⟩ = .ok ts ∧
        swapped.content ⟨0, 1⟩ = .ok ss ∧ swapped.content ⟨0, 3⟩ = .ok ts ∧
        ∃ nodes, m.content ⟨0, 2⟩ = .ok nodes ∧ swapped.content ⟨0, 2⟩ = .ok nodes := by
  intro items f m swapped
  have hcompiled : Program.compileAll items = .ok (Program.ofItems items) := by rfl
  have hmatch : (Program.ofItems items).match? f f.root 0 =
      .ok (some ⟨⟨⟨1⟩, 0, 4⟩, [some ⟨⟨1⟩, 0, 2⟩, some ⟨⟨1⟩, 0, 1⟩, some ⟨⟨1⟩, 3, 1⟩]⟩) := by rfl
  have hswap : swap ⟨0, 1⟩ ⟨0, 3⟩ m = .ok () swapped :=
    edit_eq_ok_after (.swap ⟨0, 1⟩ ⟨0, 3⟩) (by decide +kernel)
  have hx : m.span ⟨0, 1⟩ = .ok ⟨⟨1⟩, 0, 2⟩ := by rfl
  have hw : m.span ⟨0, 2⟩ = .ok ⟨⟨1⟩, 0, 1⟩ := by rfl
  have hy : m.span ⟨0, 3⟩ = .ok ⟨⟨1⟩, 3, 1⟩ := by rfl
  obtain ⟨ss, ts, hss, hts, -, ⟨-, hafterX⟩, ⟨-, hafterY⟩, hinside, -⟩ :=
    swap_exchanges_nodes hcompiled (Forest.closed_ofValue _) (Forest.acyclic_ofValue _)
      (Forest.contains_root_ofValue _) hmatch .refl hswap hx hy
  obtain ⟨nodes, hn, -, hafter⟩ := hinside ⟨0, 2⟩ _ hw (.inl (by decide))
  exact ⟨hswap, hx, hw, hy, ss, ts, hss, hts, hafterX, hafterY, nodes, hn, hafter⟩

end Found

end Match

end NestedRegex
