import NestedRegex.Proofs.Forest.Graph

namespace NestedRegex.Forest

variable {f : Forest} {s t : Span} {id seq top : SeqName} {front xs ss ts new back : List Node}
  {n i : Nat} {child : Option Node}

theorem nodesOf_of_contains (hc : f.contains id = true) :
    f.children? id = some (f.nodesOf id) := by
  obtain ⟨nodes, hn⟩ := contains_iff.1 hc
  rw [nodesOf_eq hn, hn]

theorem children_of_contains (hc : f.contains id = true) : f.children id = .ok (f.nodesOf id) :=
  children_ok (nodesOf_of_contains hc)

theorem length_of_contains (hc : f.contains id = true) :
    f.length id = .ok (f.nodesOf id).length := by
  rw [length_eq, children_of_contains hc]
  rfl

theorem child?_of_contains (hc : f.contains id = true) (i : Nat) :
    f.child? id i = .ok (f.nodesOf id)[i]? := by
  rw [child?_eq, children_of_contains hc]
  rfl

theorem of_children_ok {nodes : List Node} (h : f.children id = .ok nodes) :
    f.contains id = true ∧ f.nodesOf id = nodes := by
  have hc := children_eq_ok_iff.1 h
  exact ⟨contains_iff.2 ⟨nodes, hc⟩, nodesOf_eq hc⟩

theorem of_length_ok (h : f.length id = .ok n) :
    f.contains id = true ∧ n = (f.nodesOf id).length := by
  rw [length_eq] at h
  cases hc : f.children id with
  | error e =>
    rw [hc] at h
    cases h
  | ok nodes =>
    rw [hc] at h
    obtain ⟨hin, rfl⟩ := of_children_ok hc
    exact ⟨hin, (Except.ok.inj h).symm⟩

theorem of_child?_ok (h : f.child? id i = .ok child) :
    f.contains id = true ∧ (f.nodesOf id)[i]? = child := by
  rw [child?_eq] at h
  cases hc : f.children id with
  | error e =>
    rw [hc] at h
    cases h
  | ok nodes =>
    rw [hc] at h
    obtain ⟨hin, rfl⟩ := of_children_ok hc
    exact ⟨hin, Except.ok.inj h⟩

theorem of_row_error {e : Fault} (h : f.row id = .error e) : e = .missingSequence id := by
  unfold row at h
  split at h
  · cases h
  · exact (Except.error.inj h).symm

theorem of_length_error {e : Fault} (h : f.length id = .error e) : e = .missingSequence id := by
  unfold length at h
  cases hr : f.row id with
  | ok row =>
    rw [hr] at h
    cases h
  | error e' =>
    rw [hr] at h
    exact Except.error.inj h ▸ of_row_error hr

theorem of_child?_error {e : Fault} (h : f.child? id i = .error e) : e = .missingSequence id := by
  unfold child? at h
  cases hr : f.row id with
  | ok row =>
    rw [hr] at h
    cases h
  | error e' =>
    rw [hr] at h
    exact Except.error.inj h ▸ of_row_error hr

theorem mem_nodesOf : .seq top ∈ f.nodesOf id ↔ f.Child id top := by
  unfold nodesOf Child
  cases f.children? id <;> simp

theorem child_of_getElem? (hi : (f.nodesOf seq)[i]? = some (.seq top)) :
    f.Child seq top :=
  mem_nodesOf.1 (List.mem_of_getElem? hi)

/-- The nodes of a span, with what stands before and behind them. -/
theorem nodes?_eq_some_iff : f.nodes? s = some xs ↔ ∃ front back,
    f.children? s.seq = some (front ++ xs ++ back) ∧ front.length = s.start ∧
      xs.length = s.length := by
  rw [nodes?_eq]
  constructor
  · intro h
    obtain ⟨nodes, hc, hn⟩ := Option.bind_eq_some_iff.1 h
    split at hn
    · next hs =>
      obtain rfl := Option.some.inj hn
      simp only [Span.stop] at hs
      refine ⟨nodes.take s.start, (nodes.drop s.start).drop s.length, ?_, ?_, ?_⟩
      · rw [List.append_assoc, List.take_append_drop, List.take_append_drop]
        exact hc
      · simp only [List.length_take]
        omega
      · simp only [List.length_take, List.length_drop]
        omega
    · cases hn
  · rintro ⟨front, back, hc, hf, hx⟩
    rw [hc, Option.bind_some, if_pos (by simp [Span.stop]; omega), ← hf, ← hx]
    simp

theorem length_of_nodes? (h : f.nodes? s = some xs) : xs.length = s.length := by
  obtain ⟨front, back, -, -, hx⟩ := nodes?_eq_some_iff.1 h
  exact hx

/-- A span that is there stops inside its sequence. -/
theorem stop_le_of_nodes? (h : f.nodes? s = some xs) : s.stop ≤ (f.nodesOf s.seq).length := by
  obtain ⟨front, back, hc, hf, hx⟩ := nodes?_eq_some_iff.1 h
  rw [nodesOf_eq hc]
  simp only [Span.stop, List.length_append]
  omega

/-- A span inside a sequence that is there has nodes. -/
theorem nodes?_of_stop_le (hc : f.contains s.seq = true) (hle : s.stop ≤ (f.nodesOf s.seq).length) :
    f.nodes? s = some (((f.nodesOf s.seq).drop s.start).take s.length) := by
  rw [nodes?_eq, nodesOf_of_contains hc, Option.bind_some, if_pos hle]

/-- Two spans of one sequence, the first in front, with all that is around them. -/
theorem exists_between (hs : f.nodes? s = some ss) (ht : f.nodes? t = some ts) (e : s.seq = t.seq)
    (order : s.stop ≤ t.start) : ∃ front between back,
      f.children? s.seq = some (front ++ ss ++ between ++ ts ++ back) ∧ front.length = s.start ∧
        ss.length = s.length ∧ s.stop + between.length = t.start ∧ ts.length = t.length := by
  obtain ⟨front, rest, hc, hfront, hss⟩ := nodes?_eq_some_iff.1 hs
  obtain ⟨front', back, hc', hfront', hts⟩ := nodes?_eq_some_iff.1 ht
  rw [← e] at hc'
  have hfirst : front ++ ss <+: front ++ ss ++ rest := List.prefix_append _ _
  have hsecond : front' <+: front ++ ss ++ rest := by
    rw [Option.some.inj (hc.symm.trans hc'), List.append_assoc]
    exact List.prefix_append _ _
  simp only [Span.stop] at order ⊢
  obtain ⟨between, rfl⟩ := List.prefix_of_prefix_length_le hfirst hsecond (by
    rw [List.length_append]
    omega)
  simp only [List.length_append] at hfront'
  exact ⟨front, between, back, hc', hfront, hss, by omega, hts⟩

theorem Closed.holds_of_nodes? (hf : f.Closed) (h : f.nodes? s = some xs) : f.Holds xs := by
  obtain ⟨front, back, hc, -, -⟩ := nodes?_eq_some_iff.1 h
  exact (hf _ _ hc).mono (by simp)

theorem spliced_ok (hc : f.children? id = some (front ++ xs ++ back)) :
    f.spliced id front.length (front.length + xs.length) new =
      .ok (xs, (front ++ new ++ back).toArray) := by
  obtain ⟨row, hr, hrow⟩ := Option.map_eq_some_iff.1 hc
  have hok : f.row id = .ok row := row_eq_ok_iff.2 hr
  obtain rfl : row = (front ++ xs ++ back).toArray := Array.toList_inj.1 (by simpa using hrow)
  have hrest : back.take (front.length + (xs.length + back.length) -
      (front.length + xs.length)) = back := List.take_of_length_le (by omega)
  simp only [spliced, hok, bind, Except.bind]
  rw [if_pos (by simp)]
  simp [pure, Except.pure, hrest]

end NestedRegex.Forest
