import NestedRegex.Proofs.Forest.Sequences
import NestedRegex.Proofs.Pass.Runs
import NestedRegex.Proofs.Search.Order
import NestedRegex.Proofs.Value.Repeats

namespace NestedRegex

theorem drop_succ_of_drop {vs us : List Value} {v : Value} {n : Nat} (h : vs.drop n = v :: us) :
    vs.drop (n + 1) = us := by
  rw [← List.tail_drop, h, List.tail_cons]

theorem Way.past_past (w : Way) (m n : Nat) : (w.past m).past n = w.past (m + n) := by
  simp only [Way.past, Nat.add_assoc]

namespace Forest

variable {f : Forest} {seq : SeqName} {vs : List Value} {start position : Nat}

/-- Values in a row are those of the nodes of a span. -/
theorem exists_nodes?_of_prefix (hc : f.contains seq = true) (hne : vs ≠ [])
    (h : vs <+: (f.valuesOf seq).drop position) :
    ∃ nodes, f.nodes? ⟨seq, position, vs.length⟩ = some nodes ∧ nodes.map f.value = vs := by
  have hpos := List.length_pos_of_ne_nil hne
  have hle := h.length_le
  rw [List.length_drop, length_valuesOf] at hle
  refine ⟨_, nodes?_of_stop_le hc ?_, ?_⟩
  · change position + vs.length ≤ (f.nodesOf seq).length
    omega
  · rw [List.map_take, List.map_drop]
    exact (List.prefix_iff_eq_take.1 h).symm

theorem prefix_of_nodes? {length : Nat} {nodes : List Node}
    (h : f.nodes? ⟨seq, position, length⟩ = some nodes) :
    nodes.map f.value <+: (f.valuesOf seq).drop position := by
  obtain ⟨front, back, hc, hfront, -⟩ := nodes?_eq_some_iff.1 h
  obtain rfl : front.length = position := hfront
  rw [valuesOf, nodesOf_eq hc, ← List.map_drop, List.append_assoc, List.drop_left]
  exact ⟨back.map f.value, (List.map_append ..).symm⟩

/-- A span has the content of another one just where its values come again. -/
theorem sameContent_iff (hc : f.contains seq = true) (hne : vs ≠ [])
    (h : vs <+: (f.valuesOf seq).drop start) :
    f.sameContent ⟨seq, start, vs.length⟩ ⟨seq, position, vs.length⟩ = true ↔
      vs <+: (f.valuesOf seq).drop position := by
  obtain ⟨xs, hxs, rfl⟩ := exists_nodes?_of_prefix hc hne h
  simp only [sameContent, hxs]
  constructor
  · intro hsame
    split at hsame
    · next xs' ys hxs' hys =>
      obtain rfl := Option.some.inj hxs'
      rw [of_decide_eq_true hsame]
      exact prefix_of_nodes? hys
    · cases hsame
  · intro hagain
    obtain ⟨ys, hys, hvalues⟩ := exists_nodes?_of_prefix hc hne hagain
    simp only [hys, hvalues, decide_true]

end Forest

namespace Pass

open Match Pattern Value

variable {f : Forest} {seq : SeqName} {start : Nat} {name : String} {w : Way}
  {c : Except (Failure TestError) Way} {vs : List Value} {x y : Value}

/-- A reference goes on where the values that its name stands for come again. -/
theorem mem_ways_backRef (hc : f.contains seq = true) (hne : vs ≠ [])
    (h : vs <+: (f.valuesOf seq).drop start) (hw : w.bound name = some ⟨seq, start, vs.length⟩) :
    c ∈ ways f (.backRef name) seq w ↔
      vs <+: (f.valuesOf seq).drop w.position ∧ c = .ok (w.past vs.length) := by
  simp only [ways, hw, Forest.sameContent_iff hc hne h]
  split
  · next hagain => simp [hagain]
  · next hnot => simp [hnot]

/-- A repeated reference to one value goes on behind any number of its copies. -/
theorem mem_turns_backRef (hc : f.contains seq = true) (h : [y] <+: (f.valuesOf seq).drop start)
    {most : Nat} (hw : w.bound name = some ⟨seq, start, 1⟩)
    (hvs : (f.valuesOf seq).drop w.position = vs) (hmost : vs.length ≤ most) :
    c ∈ turns (ways f (.backRef name) seq) most w ↔
      ∃ more, List.replicate (more + 1) y <+: vs ∧ c = .ok (w.past (more + 1)) := by
  induction most generalizing w vs with
  | zero =>
    rw [List.length_eq_zero_iff.1 (Nat.le_zero.1 hmost), turns]
    simp
  | succ most ih =>
    have turn {c : Except (Failure TestError) Way} :
        c ∈ ways f (.backRef name) seq w ↔ [y] <+: vs ∧ c = .ok (w.past 1) := by
      rw [← hvs]
      exact mem_ways_backRef hc (List.cons_ne_nil _ _) h hw
    have again {us : List Value} (hus : vs = y :: us) :
        c ∈ turns (ways f (.backRef name) seq) most (w.past 1) ↔
          ∃ more, List.replicate (more + 1) y <+: us ∧ c = .ok ((w.past 1).past (more + 1)) := by
      rw [hus] at hmost
      refine ih (w := w.past 1) hw ?_ (Nat.le_of_succ_le_succ hmost)
      exact drop_succ_of_drop (hvs.trans hus)
    rw [turns, mem_andThen_ok fun c hc => ⟨_, (turn.1 hc).2⟩]
    constructor
    · intro h
      obtain ⟨v, hv, hcv⟩ := h
      obtain ⟨⟨us, hus⟩, hv⟩ := turn.1 hv
      obtain rfl := Except.ok.inj hv
      rcases List.mem_append.1 hcv with hcv | hcv
      · obtain ⟨more, hmore, hcv⟩ := (again hus.symm).1 hcv
        refine ⟨more + 1, ?_, ?_⟩
        · rw [← hus]
          exact List.cons_prefix_cons.2 ⟨rfl, hmore⟩
        · rw [hcv, Way.past_past, Nat.add_comm 1]
      · exact ⟨0, ⟨us, hus⟩, List.mem_singleton.1 hcv⟩
    · intro h
      obtain ⟨more, ⟨us, hus⟩, hcv⟩ := h
      have here : vs = y :: (List.replicate more y ++ us) := hus.symm
      refine ⟨w.past 1, turn.2 ⟨⟨_, here.symm⟩, rfl⟩, List.mem_append.2 ?_⟩
      cases more with
      | zero => exact .inr (List.mem_singleton.2 hcv)
      | succ more =>
        refine .inl ((again here).2 ⟨more, List.prefix_append _ _, ?_⟩)
        rw [hcv, Way.past_past, Nat.add_comm 1]

/-- The way behind the first two nodes of a run, with both names bound. -/
def opened (seq : SeqName) (start : Nat) : Way :=
  ((Way.mk (start + 2) fun _ => none).bind "F2" ⟨seq, start + 1, 1⟩).bind "F1" ⟨seq, start, 2⟩

theorem mem_ways_opening :
    c ∈ ways f (captureSpan "F1" [.any, capture "F2"]) seq ⟨start, fun _ => none⟩ ↔
      start + 1 < (f.nodesOf seq).length ∧ c = .ok (opened seq start) := by
  by_cases h : start + 1 < (f.nodesOf seq).length
  · have hstart : start < (f.nodesOf seq).length := Nat.lt_of_succ_lt h
    have hlength : start + 1 + 1 - start = 2 := by omega
    simp [captureSpan, capture, ways, waysOfItems, Way.past, Way.bind, opened, h, hstart, hlength]
  · by_cases hstart : start < (f.nodesOf seq).length <;>
      simp [captureSpan, capture, ways, waysOfItems, Way.past, h, hstart]

theorem mem_ways_atEnd :
    c ∈ ways f .atEnd seq w ↔ w.position = (f.nodesOf seq).length ∧ c = .ok w := by
  rw [ways]
  split
  · next h => simp [h]
  · next h => simp [h]

section Opened

variable (hc : f.contains seq = true) (hvs : (f.valuesOf seq).drop start = x :: y :: vs)
include hc hvs

theorem mem_ways_copies : c ∈ ways f (.oneOrMore (.backRef "F2")) seq (opened seq start) ↔
    ∃ more, List.replicate (more + 1) y <+: vs ∧ c = .ok ((opened seq start).past (more + 1)) := by
  have behind := drop_succ_of_drop hvs
  have most : (f.nodesOf seq).length - (start + 2) = vs.length := by
    rw [← Forest.length_valuesOf, ← List.length_drop, drop_succ_of_drop behind]
  rw [ways]
  exact mem_turns_backRef hc ⟨vs, behind.symm⟩ rfl (drop_succ_of_drop behind)
    (Nat.le_of_eq most.symm)

theorem mem_ways_again {m : Nat} :
    c ∈ ways f (.backRef "F1") seq ((opened seq start).past m) ↔
      [x, y] <+: vs.drop m ∧ c = .ok ((opened seq start).past (m + 2)) := by
  have long : [x, y] <+: (f.valuesOf seq).drop start := ⟨vs, hvs.symm⟩
  rw [mem_ways_backRef hc (List.cons_ne_nil _ _) long rfl, Way.past_past,
    ← drop_succ_of_drop (drop_succ_of_drop hvs), List.drop_drop]
  rfl

/-- The rest of the pattern, behind the first two nodes, fits just the rest of a run. -/
theorem mem_waysOfItems_opened :
    c ∈ waysOfItems f [.oneOrMore (.backRef "F2"), .backRef "F1", .atEnd] seq (opened seq start) ↔
      (∃ more, vs = List.replicate (more + 1) y ++ [x, y]) ∧
        c = .ok ⟨(f.nodesOf seq).length, (opened seq start).bound⟩ := by
  have length : (f.nodesOf seq).length = start + 2 + vs.length := by
    have hlength := congrArg List.length hvs
    rw [List.length_drop, Forest.length_valuesOf] at hlength
    simp only [List.length_cons] at hlength
    omega
  have ends {m : Nat} (hm : m = vs.length) : (opened seq start).past m =
      ⟨(f.nodesOf seq).length, (opened seq start).bound⟩ := by
    rw [length, hm]
    rfl
  have sure : ∀ c ∈ ways f (.oneOrMore (.backRef "F2")) seq (opened seq start), ∃ v, c = .ok v := by
    intro c hmem
    obtain ⟨more, -, hv⟩ := (mem_ways_copies hc hvs).1 hmem
    exact ⟨_, hv⟩
  rw [waysOfItems, mem_andThen_ok sure]
  constructor
  · intro ⟨u, hu, hcu⟩
    obtain ⟨more, hcopies, hu⟩ := (mem_ways_copies hc hvs).1 hu
    obtain rfl := Except.ok.inj hu
    rw [waysOfItems, mem_andThen_ok fun c hmem => ⟨_, ((mem_ways_again hc hvs).1 hmem).2⟩] at hcu
    obtain ⟨v, hv, hcv⟩ := hcu
    obtain ⟨hagain, hv⟩ := (mem_ways_again hc hvs).1 hv
    obtain rfl := Except.ok.inj hv
    rw [waysOfItems_single, mem_ways_atEnd] at hcv
    obtain ⟨hend, hcv⟩ := hcv
    have hlength : more + 1 + 2 = vs.length := Nat.add_left_cancel (hend.trans length)
    exact ⟨⟨more, eq_copies_append_iff.1 ⟨hcopies, hagain, hlength⟩⟩, by rw [hcv, ends hlength]⟩
  · intro ⟨⟨more, hmore⟩, hcv⟩
    obtain ⟨hcopies, hagain, hlength⟩ := eq_copies_append_iff.2 hmore
    refine ⟨_, (mem_ways_copies hc hvs).2 ⟨more, hcopies, rfl⟩, ?_⟩
    refine Choices.mem_andThen_of_mem ((mem_ways_again hc hvs).2 ⟨hagain, rfl⟩) ?_
    rw [waysOfItems_single, mem_ways_atEnd, ends hlength]
    exact ⟨rfl, hcv⟩

end Opened

/-- The pattern fits a run at the end of a sequence, and has only one result there. -/
theorem mem_waysOfItems_repeatedRun (hc : f.contains seq = true) :
    c ∈ waysOfItems f repeatedRun seq ⟨start, fun _ => none⟩ ↔
      (∃ x y, IsRun x y ((f.valuesOf seq).drop start)) ∧
        c = .ok ⟨(f.nodesOf seq).length, (opened seq start).bound⟩ := by
  rw [repeatedRun, waysOfItems, mem_andThen_ok fun c hmem => ⟨_, (mem_ways_opening.1 hmem).2⟩]
  constructor
  · intro ⟨u, hu, hcu⟩
    obtain ⟨hlt, hu⟩ := mem_ways_opening.1 hu
    obtain rfl := Except.ok.inj hu
    rw [← Forest.length_valuesOf] at hlt
    have hvs := List.drop_eq_getElem_cons (Nat.lt_of_succ_lt hlt)
    rw [List.drop_eq_getElem_cons hlt] at hvs
    obtain ⟨⟨more, hmore⟩, hcu⟩ := (mem_waysOfItems_opened hc hvs).1 hcu
    exact ⟨⟨_, _, more, by rw [hvs, hmore]⟩, hcu⟩
  · intro ⟨⟨x, y, more, hvs⟩, hcu⟩
    have hlt : start + 1 < (f.nodesOf seq).length := by
      have hlength := congrArg List.length hvs
      rw [List.length_drop, Forest.length_valuesOf] at hlength
      simp only [List.length_cons] at hlength
      omega
    exact ⟨_, mem_ways_opening.2 ⟨hlt, rfl⟩, (mem_waysOfItems_opened hc hvs).2 ⟨⟨more, rfl⟩, hcu⟩⟩

/-- The captures of a run that begins at a position and goes on to the end of the sequence. -/
def runCaptures (f : Forest) (seq : SeqName) (start : Nat) : Captures :=
  ⟨⟨seq, start, (f.nodesOf seq).length - start⟩, (names repeatedRun).map (opened seq start).bound⟩

/-- The program finds a run that goes on to the end of the sequence, and nothing else. -/
theorem finds_repeatedRun (hf : f.Closed) (ha : f.Acyclic) (hc : f.contains seq = true)
    (start : Nat) : (Program.ofItems repeatedRun).finds f seq start =
      (run? ((f.valuesOf seq).drop start)).map fun _ => runCaptures f seq start := by
  have hp : Program.compileAll repeatedRun = .ok (Program.ofItems repeatedRun) :=
    program_eq .repeats
  rw [Program.finds, Machine.match?_eq hp hf ha hc, matchings]
  cases hrun : run? ((f.valuesOf seq).drop start) with
  | none =>
    have none : waysOfItems f repeatedRun seq ⟨start, fun _ => Option.none⟩ = [] := by
      refine List.eq_nil_iff_forall_not_mem.2 fun c hmem => ?_
      obtain ⟨⟨x, y, h⟩, -⟩ := (mem_waysOfItems_repeatedRun hc).1 hmem
      exact run?_eq_none_iff.1 hrun x y h
    rw [none]
    rfl
  | some pair =>
    have hmem := (mem_waysOfItems_repeatedRun hc).2 ⟨⟨_, _, run?_eq_some_iff.1 hrun⟩, rfl⟩
    obtain ⟨c, cs, hways⟩ := List.exists_cons_of_ne_nil (List.ne_nil_of_mem hmem)
    have first : c ∈ waysOfItems f repeatedRun seq ⟨start, fun _ => none⟩ :=
      hways ▸ List.mem_cons_self
    rw [hways, ((mem_waysOfItems_repeatedRun hc).1 first).2]
    rfl

end Pass

end NestedRegex
