import NestedRegex.Proofs.Forest.Moves

namespace NestedRegex.Forest

/-- The nodes `new` stand in the place of a span where its nodes `old` stood. -/
def InPlace (f g : Forest) (s : Span) (old new : List Node) : Prop :=
  ∃ front back, f.children? s.seq = some (front ++ old ++ back) ∧
    g.children? s.seq = some (front ++ new ++ back) ∧ front.length = s.start ∧
    old.length = s.length

/-- The nodes `ss` and `ts` of two spans changed places, and nothing else changed. Two spans of one
sequence come in their order, and what is between them stays between them. -/
structure Traded (f g : Forest) (s t : Span) (ss ts : List Node) : Prop where
  size : g.size = f.size
  root : g.root = f.root
  other : ∀ id, id ≠ s.seq → id ≠ t.seq → g.children? id = f.children? id
  within : s.seq = t.seq → ∃ front between back,
    f.children? s.seq = some (front ++ ss ++ between ++ ts ++ back) ∧
    g.children? s.seq = some (front ++ ts ++ between ++ ss ++ back) ∧
    front.length = s.start ∧ ss.length = s.length ∧ s.stop + between.length = t.start ∧
    ts.length = t.length
  across : s.seq ≠ t.seq → InPlace f g s ss ts ∧ InPlace f g t ts ss

variable {f g k : Forest} {s t u s' t' : Span}
  {ss ts xs ys old new nodes front between back front' between' back' : List Node}

namespace InPlace

theorem nodes? (h : InPlace f g s old new) : f.nodes? s = some old := by
  obtain ⟨front, back, hf, -, hfront, hold⟩ := h
  exact nodes?_eq_some_iff.2 ⟨front, back, hf, hfront, hold⟩

theorem length (h : InPlace f g s old new) : old.length = s.length :=
  length_of_nodes? h.nodes?

/-- The nodes around a place stay. -/
theorem children (h : InPlace f g s old new)
    (hc : f.children? s.seq = some (front ++ nodes ++ back)) (hfront : front.length = s.start)
    (hnodes : nodes.length = s.length) : g.children? s.seq = some (front ++ new ++ back) := by
  obtain ⟨front', back', hf, hg, hfront', hold⟩ := h
  have heq := Option.some.inj (hf.symm.trans hc)
  simp only [List.append_assoc] at heq
  obtain ⟨rfl, hrest⟩ := List.append_inj heq (by omega)
  obtain ⟨-, rfl⟩ := List.append_inj hrest (by omega)
  exact hg

/-- The old nodes and the place say what is around the new ones. -/
theorem children_eq (h : InPlace f g s old new) (h' : InPlace f k s old new) :
    k.children? s.seq = g.children? s.seq := by
  obtain ⟨front, back, hf, hg, hfront, hold⟩ := h
  rw [h'.children hf hfront hold, hg]

/-- Nodes put back in the place of those that took theirs. -/
theorem children_back (h : InPlace f g s old new) (h' : InPlace g k s' new old)
    (hseq : s'.seq = s.seq) (hstart : s'.start = s.start) :
    k.children? s.seq = f.children? s.seq := by
  obtain ⟨front, back, hf, hg, hfront, -⟩ := h
  rw [← hseq] at hf hg ⊢
  rw [h'.children hg (hfront.trans hstart.symm) h'.length, hf]

/-- A span around that place is stretched to it. -/
theorem nodes?_stretched (h : InPlace f g s old new) (hn : f.nodes? u = some nodes)
    (henc : u.encloses s = true) :
    g.nodes? (u.stretched s new.length) = some (u.patched s new nodes) := by
  obtain ⟨front, back, hf, hg, hfront, hold⟩ := h
  exact Forest.nodes?_stretched hf hfront hold hn henc hg

end InPlace

/-- Two runs of children with as much before them and between them are the same. -/
theorem between_unique
    (h : front' ++ ss ++ between' ++ ts ++ back' = front ++ ss ++ between ++ ts ++ back)
    (hfront : front'.length = front.length) (hbetween : between'.length = between.length) :
    front' = front ∧ between' = between ∧ back' = back := by
  simp only [List.append_assoc] at h
  obtain ⟨rfl, hrest⟩ := List.append_inj h hfront
  obtain ⟨rfl, hback⟩ := List.append_inj (List.append_cancel_left hrest) hbetween
  exact ⟨rfl, rfl, List.append_cancel_left hback⟩

namespace Traded

/-- In two sequences the order does not matter. -/
theorem symm (h : Traded f g s t ss ts) (ne : s.seq ≠ t.seq) : Traded f g t s ts ss where
  size := h.size
  root := h.root
  other id ht hs := h.other id hs ht
  within e := absurd e.symm ne
  across _ := (h.across ne).symm

/-- There is one forest in which two spans have exchanged their nodes. -/
theorem unique (h : Traded f g s t ss ts) (h' : Traded f k s t ss ts) : k = g := by
  refine eq_of_children? (fun id => ?_) (h'.root.trans h.root.symm)
  by_cases e : s.seq = t.seq
  · by_cases hid : id = s.seq
    · obtain ⟨front, between, back, hf, hg, hfront, -, hbetween, -⟩ := h.within e
      obtain ⟨front', between', back', hf', hk, hfront', -, hbetween', -⟩ := h'.within e
      obtain ⟨rfl, rfl, rfl⟩ :=
        between_unique (Option.some.inj (hf'.symm.trans hf)) (by omega) (by omega)
      rw [hid, hk, hg]
    · rw [h'.other id hid (e ▸ hid), h.other id hid (e ▸ hid)]
  · by_cases hs : id = s.seq
    · rw [hs, (h.across e).1.children_eq (h'.across e).1]
    · by_cases ht : id = t.seq
      · rw [ht, (h.across e).2.children_eq (h'.across e).2]
      · rw [h'.other id hs ht, h.other id hs ht]

/-- No nodes right behind a span change nothing. -/
theorem eq_of_tail (h : Traded f g s t ss ts) (e : s.seq = t.seq) (hempty : t.length = 0)
    (hstart : t.start = s.stop) : g = f := by
  obtain ⟨front, between, back, hf, hg, -, -, hbetween, hts⟩ := h.within e
  obtain rfl : between = [] := List.eq_nil_of_length_eq_zero (by omega)
  obtain rfl : ts = [] := List.eq_nil_of_length_eq_zero (hts.trans hempty)
  refine eq_of_children? (fun id => ?_) h.root
  by_cases hid : id = s.seq
  · rw [hid, hf, hg]
    simp only [List.append_nil]
  · exact h.other id hid (e ▸ hid)

/-- In one sequence a second exchange undoes the first one if it is between the spans that have the
nodes then. -/
theorem eq_of_back_within (h : Traded f g s t ss ts) (h' : Traded g k t' s' ts ss)
    (e : s.seq = t.seq) (hs : s'.seq = s.seq) (ht : t'.seq = s.seq)
    (hstart : t'.start = s.start) (hstop : s'.stop = t.stop) : k = f := by
  obtain ⟨front, between, back, hf, hg, hfront, hss, hbetween, hts⟩ := h.within e
  obtain ⟨front', between', back', hg', hk, hfront', hts', hbetween', hss'⟩ :=
    h'.within (ht.trans hs.symm)
  simp only [Span.stop] at hstop hbetween hbetween'
  rw [ht] at hg' hk
  obtain ⟨rfl, rfl, rfl⟩ :=
    between_unique (Option.some.inj (hg'.symm.trans hg)) (by omega) (by omega)
  refine eq_of_children? (fun id => ?_) (h'.root.trans h.root)
  by_cases hid : id = s.seq
  · rw [hid, hf, hk]
  · exact (h'.other id (ht ▸ hid) (hs ▸ hid)).trans (h.other id hid (e ▸ hid))

/-- In two sequences too. -/
theorem eq_of_back_across (h : Traded f g s t ss ts) (h' : Traded g k t' s' ts ss)
    (ne : s.seq ≠ t.seq) (hs : s'.seq = t.seq) (ht : t'.seq = s.seq)
    (hstart : t'.start = s.start) (hstart' : s'.start = t.start) : k = f := by
  obtain ⟨hfirst, hsecond⟩ := h.across ne
  obtain ⟨hfirst', hsecond'⟩ := h'.across (by rw [ht, hs]; exact ne)
  refine eq_of_children? (fun id => ?_) (h'.root.trans h.root)
  by_cases hid : id = s.seq
  · rw [hid]
    exact hfirst.children_back hfirst' ht hstart
  by_cases hid' : id = t.seq
  · rw [hid']
    exact hsecond.children_back hsecond' hs hstart'
  · exact (h'.other id (ht ▸ hid) (hs ▸ hid')).trans (h.other id hid hid')

/-- A span around both spans of one sequence stays where it is. -/
theorem nodes?_around (h : Traded f g s t ss ts) (e : s.seq = t.seq) (hn : f.nodes? u = some nodes)
    (hs : u.encloses s = true) (ht : u.encloses t = true) :
    g.nodes? u = some (u.patched s ts (u.patched t ss nodes)) := by
  obtain ⟨front, between, back, hf, hg, hfront, hss, hbetween, hts⟩ := h.within e
  obtain ⟨useq, hl, -⟩ := Span.encloses_iff.1 hs
  obtain ⟨-, -, hr⟩ := Span.encloses_iff.1 ht
  have horder := hbetween
  simp only [Span.stop] at horder hr
  -- The span from the start of the first to where the second stops, with all that it has.
  let both : Span := ⟨s.seq, s.start, t.stop - s.start⟩
  have hall : (ss ++ between ++ ts).length = both.length := by
    simp only [List.length_append, both, Span.stop]
    omega
  have henc : u.encloses both = true := by
    rw [Span.encloses_iff]
    simp only [both, Span.stop]
    exact ⟨useq, hl, by omega⟩
  have hbefore : f.children? both.seq = some (front ++ (ss ++ between ++ ts) ++ back) := by
    rw [hf]
    simp only [List.append_assoc]
  have hafter : g.children? both.seq = some (front ++ (ts ++ between ++ ss) ++ back) := by
    rw [hg]
    simp only [List.append_assoc]
  obtain ⟨-, before, behind, -, -, -, rfl, -, hlength⟩ :=
    split_of_encloses hbefore hfront hall hn henc
  have hkept : u.stretched both (ts ++ between ++ ss).length = u := by
    have hsame : (ts ++ between ++ ss).length = both.length := by
      simp only [List.length_append] at hall ⊢
      omega
    rw [hsame, Span.stretched, Nat.add_sub_cancel]
  have hnodes := nodes?_stretched hbefore hfront hall hn henc hafter
  rw [hkept, Span.patched_append henc hlength hall] at hnodes
  simp only [both] at hlength
  rw [hnodes, Span.patched_both_append hs ht hlength hss hbetween hts]

end Traded

end NestedRegex.Forest
