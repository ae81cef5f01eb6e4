import NestedRegex.Proofs.Forest.Load
import NestedRegex.Proofs.Forest.Zones
import NestedRegex.Proofs.Machine.Compiled

namespace NestedRegex

namespace Machine

open Pattern

variable {f : Forest} {p : Program} {seq : SeqName} {items : List Pattern}

/-- The branches of a run from its start find the matchings of the pattern. -/
theorem explores_start (h : Program.compileAll items = .ok p) (hf : f.Closed) (ha : f.Acyclic)
    (hc : f.contains seq = true) (m : Machine) (start : Nat) :
    Explores f p (m.start p seq start) (matchings f items seq start) (fullLevel f p) := by
  obtain ⟨rfl, -, ready⟩ := Program.compileAll_ok h
  have hruns := runs_items hf ha (nodup_names items) items seq ready
    (Program.itemsAt_ofItems items)
  have hfound : ∀ v m', .ok v ∈ waysOfItems f items seq ⟨start, fun _ => none⟩ →
      Stands f (Program.ofItems items) m' (0 + sizeOfItems items) seq v →
      Keeps (Program.ofItems items) (capturesOfItems items)
        (m.start (Program.ofItems items) seq start) m' →
      Explores f (Program.ofItems items) m'
        [.ok ⟨⟨seq, start, v.position - start⟩, (names items).map v.bound⟩] 1 := by
    intro v m' _ hm' hk
    have hcode : (Program.ofItems items).code[m'.address]? = some .accept := by
      rw [hm'.address, Nat.zero_add]
      exact Program.accept_ofItems items
    have haccepted : m'.accepted =
        ⟨⟨seq, start, v.position - start⟩, (names items).map v.bound⟩ := by
      rw [accepted, hk.home, hk.first, hm'.position, hm'.bindings]
      rfl
    rw [← haccepted]
    exact .accept hcode
  refine (hruns.leads (stands_start hc m start) hfound).mono ?_
  have hroom := room_add f (sizeOfItems items) 1
  have hone := le_room f 1
  have hsize : room f (sizeOfItems items + 1) ≤ fullLevel f (Program.ofItems items) := by
    rw [fullLevel, Program.size_ofItems]
    exact Nat.sub_le _ _
  omega

theorem run_eq (h : Program.compileAll items = .ok p) (hf : f.Closed) (ha : f.Acyclic)
    (hc : f.contains seq = true) (m : Machine) (start : Nat) :
    (m.run f p seq start).map Prod.fst = (matchings f items seq start).first :=
  (explores_start h hf ha hc m start).finish rfl (Nat.le_refl _)

theorem match?_eq (h : Program.compileAll items = .ok p) (hf : f.Closed) (ha : f.Acyclic)
    (hc : f.contains seq = true) (start : Nat) :
    p.match? f seq start = (matchings f items seq start).first := by
  rw [← run_eq h hf ha hc new start]
  unfold Program.match?
  cases new.run f p seq start <;> rfl

/-- A run and a match answer with the first matching of the pattern, whatever the machine did
before: with its spans, with nothing if there is none, or with the error that comes before it. -/
theorem run_eq_first_matching (h : Program.compileAll items = .ok p) (hf : f.Closed)
    (ha : f.Acyclic) (hc : f.contains seq = true) (m : Machine) (start : Nat) :
    (m.run f p seq start).map Prod.fst = (matchings f items seq start).first ∧
      p.match? f seq start = (matchings f items seq start).first :=
  ⟨run_eq h hf ha hc m start, match?_eq h hf ha hc start⟩

/-- The second turn binds the name anew, and the reference compares nested content. -/
theorem run_eq_first_matching_rebound :
    let items : List Pattern :=
      [.oneOrMore (.choice [.string "none", .sequence [.any, .named "x" [.any]]]), .backRef "x",
        .atEnd]
    let v : Value := .seq [.seq [.scalar (.int 1), .scalar .null],
      .seq [.scalar (.int 2), .seq [.scalar (.string "q")]], .seq [.scalar (.string "q")]]
    let f := Forest.ofValue v
    Program.compileAll items = .ok (Program.ofItems items) ∧
      (new.run f (Program.ofItems items) f.root 0).map Prod.fst =
        .ok (some ⟨⟨⟨4⟩, 0, 3⟩, [some ⟨⟨2⟩, 1, 1⟩]⟩) := by
  intro items v f
  have hcompiled : Program.compileAll items = .ok (Program.ofItems items) := by rfl
  have hrun := (run_eq_first_matching hcompiled (Forest.closed_ofValue v)
    (Forest.acyclic_ofValue v) (Forest.contains_root_ofValue v) new 0).1
  exact ⟨hcompiled, hrun.trans (by decide)⟩

end Machine

open Pattern

variable {f : Forest} {p : Program} {seq : SeqName} {items : List Pattern} {start : Nat}
  {b : Captures}

theorem Choices.mem_of_first {cs : Choices α} {a : α} (h : cs.first = .ok (some a)) :
    .ok a ∈ cs := by
  cases cs with
  | nil => cases h
  | cons c cs =>
    cases c with
    | error e => cases h
    | ok c =>
      obtain rfl := Option.some.inj (Except.ok.inj h)
      exact List.mem_cons_self

/-- What a match has bound, one of the ways has bound. -/
theorem Program.way_of_match (h : Program.compileAll items = .ok p) (hf : f.Closed)
    (ha : f.Acyclic) (hc : f.contains seq = true)
    (hm : p.match? f seq start = .ok (some b)) :
    ∃ v, .ok v ∈ waysOfItems f items seq ⟨start, fun _ => none⟩ ∧
      b = ⟨⟨seq, start, v.position - start⟩, (Pattern.names items).map v.bound⟩ := by
  rw [Machine.match?_eq h hf ha hc start] at hm
  obtain ⟨v, hv, hb⟩ := Choices.mem_andThen (Choices.mem_of_first hm)
  exact ⟨v, hv, by simpa using hb⟩

/-- A match lies in its sequence from the position on, and what it binds lies inside it or below. -/
theorem Program.match_within (h : Program.compileAll items = .ok p) (hf : f.Closed)
    (ha : f.Acyclic) (hc : f.contains seq = true)
    (hm : p.match? f seq start = .ok (some b)) :
    b.whole.seq = seq ∧ b.whole.start = start ∧ b.whole.stop ≤ (f.nodesOf seq).length ∧
      ∀ s, some s ∈ b.slots → Within f seq start b.whole.stop s := by
  obtain ⟨-, hne, ready⟩ := Program.compileAll_ok h
  obtain ⟨v, hv, rfl⟩ := way_of_match h hf ha hc hm
  have hsolid : Way.Solid ⟨start, fun _ => none⟩ := by exact nofun
  obtain ⟨hfollow, hle, -⟩ := waysOfItems_follow items ready hsolid hv
  have hstop : start + (v.position - start) = v.position := Nat.add_sub_cancel' hfollow.le
  refine ⟨rfl, rfl, ?_, fun s hs => ?_⟩
  · exact Nat.le_trans (Nat.le_of_eq hstop) (hle (.inl hne))
  · obtain ⟨n, -, hn⟩ := List.mem_map.1 hs
    rcases hfollow.bound n with he | ⟨t, ht, hin⟩
    · rw [he] at hn
      cases hn
    · obtain rfl := Option.some.inj (ht.symm.trans hn)
      exact hin.mono (Nat.le_refl _) (Nat.le_of_eq hstop.symm)

/-- A match before the end of its sequence has a node. -/
theorem Program.match_nonempty (h : Program.compileAll items = .ok p) (hf : f.Closed)
    (ha : f.Acyclic) (hc : f.contains seq = true) (hlt : start < (f.nodesOf seq).length)
    (hm : p.match? f seq start = .ok (some b)) : 0 < b.whole.length := by
  obtain ⟨-, hne, ready⟩ := Program.compileAll_ok h
  obtain ⟨v, hv, rfl⟩ := way_of_match h hf ha hc hm
  have hsolid : Way.Solid ⟨start, fun _ => none⟩ := by exact nofun
  cases items with
  | nil => exact absurd rfl hne
  | cons p ps => exact Nat.sub_pos_of_lt (waysOfItems_lt ready hsolid hlt hv)

/-- What lies below a position of a span is below one of its nodes. -/
theorem Forest.reachedFrom_of_getElem? {s : Span} {nodes : List Node} {i : Nat} {top id : SeqName}
    (hn : f.nodes? s = some nodes) (hstart : s.start ≤ i) (hstop : i < s.stop)
    (hi : (f.nodesOf s.seq)[i]? = some (.seq top)) (hr : f.Reaches top id) :
    f.ReachedFrom nodes id := by
  obtain ⟨front, back, hc, hfront, hlength⟩ := Forest.nodes?_eq_some_iff.1 hn
  rw [Forest.nodesOf_eq hc, List.append_assoc] at hi
  simp only [Span.stop] at hstop
  rw [List.getElem?_append_right (by omega), List.getElem?_append_left (by omega)] at hi
  exact ⟨top, List.mem_of_getElem? hi, hr⟩

/-- A match is a run of nodes of its sequence, and what it has captured is there: in its sequence
and not empty, and inside the match or below one of the nodes of the match. -/
theorem Program.captures_within_match (h : Program.compileAll items = .ok p) (hf : f.Closed)
    (ha : f.Acyclic) (hc : f.contains seq = true)
    (hm : p.match? f seq start = .ok (some b)) :
    ∃ nodes, f.nodes? b.whole = some nodes ∧ ∀ slot s, b.slot slot = some s →
      f.contains s.seq = true ∧ s.stop ≤ (f.nodesOf s.seq).length ∧ 0 < s.length ∧
        (b.whole.encloses s = true ∨ f.ReachedFrom nodes s.seq) := by
  obtain ⟨rfl, hstart, hstop, hwithin⟩ := match_within h hf ha hc hm
  have hnodes := Forest.nodes?_of_stop_le hc hstop
  refine ⟨_, hnodes, fun slot s hs => ?_⟩
  have hmem : some s ∈ b.slots := List.mem_of_getElem? (Option.join_eq_some_iff.1 hs)
  have here := hwithin s hmem
  rcases here.place with ⟨hseq, hleft, hright⟩ | ⟨i, top, hleft, hright, hi, hr⟩
  · have inside : b.whole.encloses s = true :=
      Span.encloses_iff.2 ⟨hseq.symm, hstart ▸ hleft, hright⟩
    exact ⟨hseq ▸ hc, here.inside, here.nonempty, .inl inside⟩
  · have below := Forest.reachedFrom_of_getElem? hnodes (hstart ▸ hleft) hright hi hr
    have there := hf.reaches hc (.head (Forest.child_of_getElem? hi) hr)
    exact ⟨there, here.inside, here.nonempty, .inr below⟩

/-- The second turn binds the inner name anew and fails, so that it keeps its span of the first. -/
theorem Program.captures_within_match_undone :
    let items : List Pattern :=
      [.oneOrMore (.choice [.named "y" [.sequence [.named "x" [.any], .literal (.int 1)]],
        .sequence [.any, .named "z" [.any]]]), .named "w" [.any]]
    let f := Forest.ofValue (.seq [.seq [.scalar (.int 5), .scalar (.int 1)],
      .seq [.seq [.scalar .null], .scalar (.int 2)], .scalar .null])
    let b : Captures := ⟨⟨⟨3⟩, 0, 3⟩, [some ⟨⟨3⟩, 0, 1⟩, some ⟨⟨0⟩, 0, 1⟩, some ⟨⟨2⟩, 1, 1⟩,
      some ⟨⟨3⟩, 2, 1⟩]⟩
    (Program.ofItems items).match? f f.root 0 = .ok (some b) ∧
      ∃ nodes, f.nodes? b.whole = some nodes ∧ f.ReachedFrom nodes ⟨0⟩ := by
  intro items f b
  have hcompiled : Program.compileAll items = .ok (Program.ofItems items) := by rfl
  have hm : (Program.ofItems items).match? f f.root 0 = .ok (some b) := by
    rw [Machine.match?_eq hcompiled (Forest.closed_ofValue _) (Forest.acyclic_ofValue _)
      (Forest.contains_root_ofValue _)]
    decide
  obtain ⟨nodes, hnodes, all⟩ := captures_within_match hcompiled (Forest.closed_ofValue _)
    (Forest.acyclic_ofValue _) (Forest.contains_root_ofValue _) hm
  obtain ⟨-, -, -, inside | below⟩ := all ⟨1⟩ ⟨⟨0⟩, 0, 1⟩ rfl
  · cases inside
  · exact ⟨hm, nodes, hnodes, below⟩

end NestedRegex
