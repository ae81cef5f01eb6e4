import NestedRegex.Proofs.Forest.Moves
import NestedRegex.Proofs.Match.Contents

namespace NestedRegex.Match

variable {m m' : Match} {a b h : Handle} {s t u x y : Span}
  {xs ys nodes frontX backX frontY backY : List Node}

/-- Where the span of a handle goes with a swap. -/
theorem Swapped.span (hs : Swapped m m' a b x y xs ys frontX backX frontY backY)
    (hu : m.span h = .ok u) (ht : u.whenSwapped x y = some t) : m'.span h = .ok t := by
  obtain rfl := hs.result
  obtain ⟨hid, hheld⟩ := span_eq_ok_iff.1 hu
  exact span_eq_ok_iff.2 ⟨hid, held_moved.2 ⟨u, hheld, ht⟩⟩

/-- In one sequence the nodes between the two spans fill the room between them. -/
theorem Swapped.between (hs : Swapped m m' a b x y xs ys frontX backX frontY backY)
    {between : List Node} (sp : Forest.Spliced m.forest m'.forest y.seq frontX
      (xs ++ between ++ ys) (ys ++ between ++ xs) backY) :
    x.stop + between.length = y.start := by
  have heq := congrArg List.length (Option.some.inj (sp.before.symm.trans hs.beforeY))
  have hx := hs.startX
  have hy := hs.startY
  have hlength := hs.lengthX
  simp only [List.length_append] at heq
  rw [Span.stop]
  omega

/-- A handle that shares no position with the swapped spans stays valid. -/
theorem Swapped.kept_iff (hs : Swapped m m' a b x y xs ys frontX backX frontY backY)
    (hu : m.span h = .ok u) (hn : m.forest.nodes? u = some nodes) (hx : u.overlaps x = false)
    (hy : u.overlaps y = false) :
    m'.isValid h = true ∧
      (m'.content h = .ok nodes ↔ ¬u.Admits x y ∧ ¬u.Admits y x) := by
  obtain ⟨t, ht, hiff⟩ : ∃ t, u.whenSwapped x y = some t ∧
      (m'.forest.nodes? t = some nodes ↔ ¬u.Admits x y ∧ ¬u.Admits y x) := by
    by_cases e : x.seq = y.seq
    · obtain ⟨between, sp⟩ := hs.turned e
      have hstart := hs.between sp
      rw [← e] at sp
      obtain ⟨t, ht, hg⟩ := Forest.nodes?_whenExchangedWithin sp hs.startX hs.lengthX hstart
        hs.lengthY hn e hx hy
      refine ⟨t, ?_, iff_of_true hg ⟨fun ha => ha.1 e, fun ha => ha.1 e.symm⟩⟩
      rw [Span.whenSwapped, if_pos e, ht]
    · obtain ⟨t, ht, hiff⟩ := Forest.nodes?_whenExchanged (hs.exchanged e) hs.startX hs.lengthX
        hs.startY hs.lengthY hn hx hy
      refine ⟨t, ?_, hiff⟩
      rw [Span.whenSwapped, if_neg e, ht]
  have hspan := hs.span hu ht
  refine ⟨?_, ?_⟩
  · rw [isValid, hspan]
    rfl
  · rw [← hiff, content_eq_ok_iff]
    constructor
    · rintro ⟨t', ht', hnodes⟩
      obtain rfl : t' = t := Except.ok.inj (ht'.symm.trans hspan)
      exact hnodes
    · exact fun hnodes => ⟨t, hspan, hnodes⟩

/-- A swap that is made exchanges the spans of its two handles. -/
theorem swapped_of_swap (hf : m.forest.Closed) (hswap : swap a b m = .ok () m')
    (hs : m.span a = .ok s) (ht : m.span b = .ok t) :
    ∃ x y xs ys frontX backX frontY backY,
      Swapped m m' a b x y xs ys frontX backX frontY backY ∧
        (x = s ∧ y = t ∨ x = t ∧ y = s) := by
  rcases swap_cases hf a b with ⟨e, he⟩ | ⟨m'', x, y, xs, ys, fx, bx, fy, by', hrun, hdone⟩
  · rw [hswap] at he
    cases he
  · obtain rfl : m'' = m' := by
      rw [hswap] at hrun
      cases hrun
      rfl
    refine ⟨x, y, xs, ys, fx, bx, fy, by', hdone, ?_⟩
    rcases hdone.spans with ⟨hx, hy⟩ | ⟨hy, hx⟩
    · exact .inl ⟨Except.ok.inj (hx.symm.trans hs), Except.ok.inj (hy.symm.trans ht)⟩
    · exact .inr ⟨Except.ok.inj (hx.symm.trans ht), Except.ok.inj (hy.symm.trans hs)⟩

section Found

variable {items : List Pattern} {p : Program} {f : Forest} {seq : SeqName} {start id : Nat}
  {found : Captures}

/-- After any run of operations on a match just found, every handle that shares no position with the
two spans of a swap is valid afterwards, and has just the nodes that it had, unless it takes in
those of one span where the other, an empty one in another sequence, lies at one of its ends. -/
theorem swap_keeps_content_iff (hp : Program.compileAll items = .ok p) (hf : f.Closed)
    (ha : f.Acyclic) (hc : f.contains seq = true) (hm : p.match? f seq start = .ok (some found))
    (run : Run (fun _ => True) (ofCaptures id p f found) m) (hswap : swap a b m = .ok () m')
    (hs : m.span a = .ok s) (ht : m.span b = .ok t) (hu : m.span h = .ok u)
    (hus : u.overlaps s = false) (hut : u.overlaps t = false) :
    ∃ nodes, m.content h = .ok nodes ∧ m'.isValid h = true ∧
      (m'.content h = .ok nodes ↔ ¬u.Admits s t ∧ ¬u.Admits t s) := by
  obtain ⟨hclosed, -, hnodes⟩ := content_of_run hp hf ha hc hm run
  obtain ⟨nodes, hn⟩ := hnodes h u hu
  obtain ⟨x, y, xs, ys, fx, bx, fy, by', hdone, hxy⟩ := swapped_of_swap hclosed hswap hs ht
  refine ⟨nodes, content_eq_ok_iff.2 ⟨u, hu, hn⟩, ?_⟩
  rcases hxy with ⟨rfl, rfl⟩ | ⟨rfl, rfl⟩
  · exact hdone.kept_iff hu hn hus hut
  · obtain ⟨hvalid, hiff⟩ := hdone.kept_iff hu hn hut hus
    exact ⟨hvalid, hiff.trans and_comm⟩

/-- A capture keeps its node beside one that was emptied and one that is swapped. -/
theorem swap_keeps_content_beside :
    let items : List Pattern :=
      [.named "x" [.any], .named "w" [.any], .named "y" [.any], .sequence [.named "z" [.any]]]
    let f := Forest.ofValue (.seq [.scalar .null, .scalar (.bool true), .scalar (.bool false),
      .seq [.seq []]])
    let m := ofCaptures 0 (Program.ofItems items) f
      ⟨⟨⟨2⟩, 0, 4⟩, [some ⟨⟨2⟩, 0, 1⟩, some ⟨⟨2⟩, 1, 1⟩, some ⟨⟨2⟩, 2, 1⟩, some ⟨⟨1⟩, 0, 1⟩]⟩
    let emptied := Operation.after (.putValues ⟨0, 1⟩ []) m
    let swapped := Operation.after (.swap ⟨0, 3⟩ ⟨0, 4⟩) emptied
    swap ⟨0, 3⟩ ⟨0, 4⟩ emptied = .ok () swapped ∧ emptied.span ⟨0, 2⟩ = .ok ⟨⟨2⟩, 0, 1⟩ ∧
      ∃ nodes, emptied.content ⟨0, 2⟩ = .ok nodes ∧ swapped.isValid ⟨0, 2⟩ = true ∧
        swapped.content ⟨0, 2⟩ = .ok nodes := by
  intro items f m emptied swapped
  have hcompiled : Program.compileAll items = .ok (Program.ofItems items) := by rfl
  have hmatch : (Program.ofItems items).match? f f.root 0 =
      .ok (some ⟨⟨⟨2⟩, 0, 4⟩,
        [some ⟨⟨2⟩, 0, 1⟩, some ⟨⟨2⟩, 1, 1⟩, some ⟨⟨2⟩, 2, 1⟩, some ⟨⟨1⟩, 0, 1⟩]⟩) := by rfl
  have hrun : Run (fun _ => True) m emptied := .single ⟨_, trivial, rfl⟩
  have hswap : swap ⟨0, 3⟩ ⟨0, 4⟩ emptied = .ok () swapped :=
    edit_eq_ok_after (.swap ⟨0, 3⟩ ⟨0, 4⟩) (by decide +kernel)
  have hspan : emptied.span ⟨0, 2⟩ = .ok ⟨⟨2⟩, 0, 1⟩ := by rfl
  obtain ⟨nodes, hn, hvalid, hiff⟩ := swap_keeps_content_iff hcompiled (Forest.closed_ofValue _)
    (Forest.acyclic_ofValue _) (Forest.contains_root_ofValue _) hmatch hrun hswap
    (s := ⟨⟨2⟩, 1, 1⟩) (t := ⟨⟨1⟩, 0, 1⟩) (by rfl) (by rfl) hspan (by decide) (by decide)
  exact ⟨hswap, hspan, nodes, hn, hvalid, hiff.2 (by decide)⟩

/-- An emptied capture is swapped with a node of another sequence, and its neighbour, which shares
no position with either, has this node too afterwards. -/
theorem swap_beside_emptied_takes_in :
    let items : List Pattern :=
      [.named "x" [.any], .named "y" [.any], .sequence [.named "z" [.any]]]
    let f := Forest.ofValue (.seq [.scalar (.int 1), .scalar (.int 2), .seq [.scalar (.int 3)]])
    let m := ofCaptures 0 (Program.ofItems items) f
      ⟨⟨⟨1⟩, 0, 3⟩, [some ⟨⟨1⟩, 0, 1⟩, some ⟨⟨1⟩, 1, 1⟩, some ⟨⟨0⟩, 0, 1⟩]⟩
    let emptied := Operation.after (.putValues ⟨0, 1⟩ []) m
    let swapped := Operation.after (.swap ⟨0, 1⟩ ⟨0, 3⟩) emptied
    (Program.ofItems items).match? f f.root 0 =
        .ok (some ⟨⟨⟨1⟩, 0, 3⟩, [some ⟨⟨1⟩, 0, 1⟩, some ⟨⟨1⟩, 1, 1⟩, some ⟨⟨0⟩, 0, 1⟩]⟩) ∧
      Run (fun _ => True) m emptied ∧ swap ⟨0, 1⟩ ⟨0, 3⟩ emptied = .ok () swapped ∧
      emptied.span ⟨0, 1⟩ = .ok ⟨⟨1⟩, 0, 0⟩ ∧ emptied.span ⟨0, 3⟩ = .ok ⟨⟨0⟩, 0, 1⟩ ∧
      emptied.span ⟨0, 2⟩ = .ok ⟨⟨1⟩, 0, 1⟩ ∧
      Span.overlaps ⟨⟨1⟩, 0, 1⟩ ⟨⟨1⟩, 0, 0⟩ = false ∧
      Span.overlaps ⟨⟨1⟩, 0, 1⟩ ⟨⟨0⟩, 0, 1⟩ = false ∧
      emptied.content ⟨0, 2⟩ = .ok [.scalar (.int 2)] ∧
      swapped.content ⟨0, 2⟩ = .ok [.scalar (.int 3), .scalar (.int 2)] := by
  intro items f m emptied swapped
  refine ⟨by rfl, .single ⟨_, trivial, rfl⟩,
    edit_eq_ok_after (.swap ⟨0, 1⟩ ⟨0, 3⟩) (by decide +kernel), ?_⟩
  decide +kernel

end Found

end NestedRegex.Match
