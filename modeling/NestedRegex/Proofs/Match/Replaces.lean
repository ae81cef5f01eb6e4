import NestedRegex.Proofs.Forest.Trades
import NestedRegex.Proofs.Match.Contents

namespace NestedRegex

/-- A span is lost to a replacement in its sequence just if the two share a position. -/
theorem Span.whenReplaced_eq_none_iff {u s : Span} {count : Nat} :
    u.whenReplaced s count = none ↔ u.overlaps s = true := by
  by_cases e : u.seq = s.seq
  · simp only [whenReplaced, overlaps, e, ne_eq, not_true, false_or, true_and, decide_eq_true_eq]
    split
    · simp only [reduceCtorEq, false_iff]
      omega
    · split
      · simp only [reduceCtorEq, false_iff]
        omega
      · simp only [true_iff]
        omega
  · simp [whenReplaced, overlaps, e]

theorem Span.not_overlaps_of_whenReplaced {u s t : Span} {count : Nat}
    (h : u.whenReplaced s count = some t) : u.overlaps s = false := by
  rw [Bool.eq_false_iff]
  intro ho
  rw [whenReplaced_eq_none_iff.2 ho] at h
  cases h

namespace Match

variable {m m' : Match} {h k : Handle} {s t u : Span} {nodes front old new back content : List Node}
  {kept gone : NameSet} {x : SeqName} {n : Node}

namespace Replaced

variable (hr : Replaced m m' h nodes s front old back kept gone)
include hr

theorem spliced : Forest.Spliced m.forest m'.forest s.seq front old nodes back := by
  rw [hr.result]
  exact Forest.spliced_setChildren hr.before nodes

theorem inPlace : m.forest.InPlace m'.forest s old nodes :=
  ⟨front, back, hr.before, hr.spliced.after, hr.start, hr.length⟩

theorem closed (hf : m.forest.Closed) : m'.forest.Closed :=
  hr.spliced.closed hf hr.holds

/-- A node that does not lead to the replaced ones is read as before. -/
theorem read_eq (hn : ¬m.forest.ReachedFrom [n] s.seq) : m'.forest.read n = m.forest.read n := by
  refine Forest.read_congr ?_ fun x hx => hr.spliced.other x fun e => hn (e ▸ hx)
  rw [hr.result, Forest.size_setChildren]

/-- Where the span of another handle goes. -/
theorem span_iff (hk : k.index ≠ h.index) (hu : m.span k = .ok u) : m'.span k = .ok t ↔
    u.whenReplaced s nodes.length = some t ∧ (t.seq ∉ gone ∨ t.seq ∈ kept) := by
  obtain ⟨hid, hheld⟩ := span_eq_ok_iff.1 hu
  rw [span_eq_ok_iff, hr.result, held_moved]
  simp only [hheld, if_neg hk, Option.filter_eq_some_iff, Option.some.injEq, Place.held.injEq,
    exists_eq_left', Bool.or_eq_true, decide_eq_true_eq, and_iff_right hid]

/-- A handle that is not lost has its nodes. -/
theorem content_other (hk : k.index ≠ h.index) (hu : m.span k = .ok u)
    (hn : m.forest.nodes? u = some content) (hvalid : m'.isValid k = true) :
    m'.content k = .ok content := by
  obtain ⟨t, ht⟩ := isValid_iff.1 hvalid
  obtain ⟨hw, -⟩ := (hr.span_iff hk hu).1 ht
  refine content_eq_ok_iff.2 ⟨t, ht, ?_⟩
  by_cases e : u.seq = s.seq
  · have ho := Span.not_overlaps_of_whenReplaced hw
    obtain ⟨t', ht', hg⟩ :=
      Forest.nodes?_whenReplaced hr.before hr.spliced.after hr.start hr.length hn ho e
    obtain rfl : t = t' := Option.some.inj (hw.symm.trans ht')
    exact hg
  · rw [Span.whenReplaced_elsewhere e] at hw
    obtain rfl := Option.some.inj hw
    rw [Forest.nodes?_eq, hr.spliced.other u.seq e, ← Forest.nodes?_eq]
    exact hn

section Acyclic

variable (ha : m.forest.Acyclic)
include ha

theorem acyclic : m'.forest.Acyclic :=
  hr.spliced.acyclic ha hr.apart

/-- What nodes lead to the replaced place does not change. -/
theorem reachedFrom_self_iff :
    m'.forest.ReachedFrom new s.seq ↔ m.forest.ReachedFrom new s.seq :=
  exists_congr fun _ => and_congr_right fun _ => hr.spliced.reaches_self_iff ha (hr.acyclic ha)

theorem not_reachedFrom_old : ¬m.forest.ReachedFrom old s.seq :=
  fun hold => ha.not_reachedFrom hr.before (hold.mono (by simp))

/-- What the old nodes lead to does not change. -/
theorem mem_gone_iff : x ∈ gone ↔ m.forest.ReachedFrom old x := by
  rw [hr.gone_iff, hr.spliced.reachedFrom_iff (hr.not_reachedFrom_old ha)]

/-- The handle stays where it was. -/
theorem span_self : m'.span h = .ok { s with length := nodes.length } := by
  have hout : s.seq ∉ gone := fun hin => hr.not_reachedFrom_old ha ((hr.mem_gone_iff ha).1 hin)
  obtain ⟨hid, hheld⟩ := span_eq_ok_iff.1 hr.span
  rw [span_eq_ok_iff, hr.result]
  refine ⟨hid, held_moved.2 ⟨s, hheld, ?_⟩⟩
  rw [if_pos rfl, Option.filter_eq_some_iff]
  simp [hout]

/-- It is on the new nodes. -/
theorem content_eq : m'.content h = .ok nodes :=
  content_eq_ok_iff.2 ⟨{ s with length := nodes.length }, hr.span_self ha,
    Forest.nodes?_eq_some_iff.2 ⟨front, back, hr.spliced.after, hr.start, rfl⟩⟩

/-- Another handle is lost to an overlap, or with the old nodes unless it is below the new ones. -/
theorem isValid_eq_false_iff (hk : k.index ≠ h.index) (hu : m.span k = .ok u) :
    m'.isValid k = false ↔ u.overlaps s = true ∨
      m.forest.ReachedFrom old u.seq ∧ ¬m.forest.ReachedFrom nodes u.seq := by
  rw [Bool.eq_false_iff, Ne, isValid_iff]
  simp only [hr.span_iff hk hu, ← hr.mem_gone_iff ha, ← hr.kept_iff]
  cases hw : u.whenReplaced s nodes.length with
  | none => simp [Span.whenReplaced_eq_none_iff.1 hw]
  | some t =>
    simp [Span.not_overlaps_of_whenReplaced hw, Span.seq_whenReplaced hw]

end Acyclic

end Replaced

/-- Two handles of one match have different places. -/
theorem index_ne (hk : m.span k = .ok u) (hh : m.span h = .ok s) (ne : k ≠ h) :
    k.index ≠ h.index := by
  intro hindex
  have hid := (span_eq_ok_iff.1 hk).1.trans (span_eq_ok_iff.1 hh).1.symm
  obtain ⟨matchId, index⟩ := k
  obtain ⟨matchId', index'⟩ := h
  exact ne (Handle.mk.injEq .. ▸ ⟨hid, hindex⟩)

/-- A replacement that is made puts its nodes in the place of those of its handle. -/
theorem replaced_of_replace (hf : m.forest.Closed) (hreplace : replace h nodes m = .ok () m')
    (hs : m.span h = .ok s) : ∃ front old back kept gone,
      Replaced m m' h nodes s front old back kept gone := by
  rcases replace_cases hf h nodes with ⟨e, he⟩ | ⟨m'', s', front, old, back, kept, gone, hrun, hr⟩
  · rw [hreplace] at he
    cases he
  · obtain rfl : m'' = m' := by
      rw [hreplace] at hrun
      cases hrun
      rfl
    obtain rfl : s' = s := Except.ok.inj (hr.span.symm.trans hs)
    exact ⟨front, old, back, kept, gone, hr⟩

section Found

variable {items : List Pattern} {p : Program} {f : Forest} {seq : SeqName} {start id : Nat}
  {found : Captures}

/-- After any run of operations on a match just found, a replacement that is made puts the new nodes
in the place of the old ones and changes no other sequence, and its handle is valid and has the new
nodes. Another handle is lost just if its span shares a position with the replaced one, or its
sequence lies below the old nodes and not below the new ones. Every other handle that stays valid
has the nodes that it had, and those of them that do not lead to the changed sequence have the
values that they had. -/
theorem replace_isValid_iff (hp : Program.compileAll items = .ok p) (hf : f.Closed)
    (ha : f.Acyclic) (hc : f.contains seq = true) (hm : p.match? f seq start = .ok (some found))
    (run : Run (fun _ => True) (ofCaptures id p f found) m)
    (hreplace : replace h nodes m = .ok () m') (hs : m.span h = .ok s) :
    ∃ old, m.content h = .ok old ∧
      (m.forest.InPlace m'.forest s old nodes ∧
        ∀ x, x ≠ s.seq → m'.forest.children? x = m.forest.children? x) ∧
      (m'.isValid h = true ∧ m'.content h = .ok nodes) ∧
      ∀ k u, k ≠ h → m.span k = .ok u →
        (m'.isValid k = false ↔ u.overlaps s = true ∨
          m.forest.ReachedFrom old u.seq ∧ ¬m.forest.ReachedFrom nodes u.seq) ∧
        (m'.isValid k = true → ∃ content, m.content k = .ok content ∧ m'.content k = .ok content ∧
          ∀ n ∈ content, ¬m.forest.ReachedFrom [n] s.seq →
            ∃ v, m.forest.read n = .ok v ∧ m'.forest.read n = .ok v) := by
  obtain ⟨hclosed, hacyclic, hnodes⟩ := content_of_run hp hf ha hc hm run
  obtain ⟨front, old, back, kept, gone, hr⟩ := replaced_of_replace hclosed hreplace hs
  have hold : m.content h = .ok old := content_eq_ok_iff.2
    ⟨s, hs, Forest.nodes?_eq_some_iff.2 ⟨front, back, hr.before, hr.start, hr.length⟩⟩
  have hself := hr.content_eq hacyclic
  refine ⟨old, hold, ⟨hr.inPlace, hr.spliced.other⟩, ⟨isValid_of_content hself, hself⟩,
    fun k u hne hu => ?_⟩
  have hk := index_ne hu hs hne
  obtain ⟨content, hn⟩ := hnodes k u hu
  refine ⟨hr.isValid_eq_false_iff hacyclic hk hu, fun hvalid => ?_⟩
  refine ⟨content, content_eq_ok_iff.2 ⟨u, hu, hn⟩, hr.content_other hk hu hn hvalid, ?_⟩
  intro n hin happart
  have hread := Forest.read_ok hclosed hacyclic
    ((hclosed.holds_of_nodes? hn).mono (List.cons_subset.2 ⟨hin, List.nil_subset _⟩))
  exact ⟨_, hread, (hr.read_eq happart).trans hread⟩

/-- A sequence gives way to the one inside it and another node. The handle inside the inner one is
kept and that beside it is lost, and the node behind moves. -/
theorem replace_isValid_unwrapped :
    let items : List Pattern :=
      [.named "w" [.sequence [.named "x" [.any], .sequence [.named "y" [.any]]]], .named "z" [.any]]
    let f := Forest.ofValue (.seq [.seq [.scalar (.int 1), .seq [.scalar (.int 2)]],
      .scalar (.int 3)])
    let m := ofCaptures 0 (Program.ofItems items) f
      ⟨⟨⟨2⟩, 0, 2⟩, [some ⟨⟨2⟩, 0, 1⟩, some ⟨⟨1⟩, 0, 1⟩, some ⟨⟨0⟩, 0, 1⟩, some ⟨⟨2⟩, 1, 1⟩]⟩
    let replaced := Operation.after (.replace ⟨0, 1⟩ [.seq ⟨0⟩, .scalar (.int 4)]) m
    replace ⟨0, 1⟩ [.seq ⟨0⟩, .scalar (.int 4)] m = .ok () replaced ∧
      m.span ⟨0, 1⟩ = .ok ⟨⟨2⟩, 0, 1⟩ ∧ m.span ⟨0, 3⟩ = .ok ⟨⟨0⟩, 0, 1⟩ ∧
      replaced.content ⟨0, 1⟩ = .ok [.seq ⟨0⟩, .scalar (.int 4)] ∧
      replaced.isValid ⟨0, 2⟩ = false ∧
      (∃ content, m.content ⟨0, 3⟩ = .ok content ∧ replaced.content ⟨0, 3⟩ = .ok content) ∧
      replaced.span ⟨0, 4⟩ = .ok ⟨⟨2⟩, 2, 1⟩ := by
  intro items f m replaced
  have hcompiled : Program.compileAll items = .ok (Program.ofItems items) := by rfl
  have hmatch : (Program.ofItems items).match? f f.root 0 = .ok (some ⟨⟨⟨2⟩, 0, 2⟩,
      [some ⟨⟨2⟩, 0, 1⟩, some ⟨⟨1⟩, 0, 1⟩, some ⟨⟨0⟩, 0, 1⟩, some ⟨⟨2⟩, 1, 1⟩]⟩) := by
    decide +kernel
  have hreplace : replace ⟨0, 1⟩ [.seq ⟨0⟩, .scalar (.int 4)] m = .ok () replaced :=
    edit_eq_ok_after (.replace ⟨0, 1⟩ [.seq ⟨0⟩, .scalar (.int 4)]) (by decide +kernel)
  have hw : m.span ⟨0, 1⟩ = .ok ⟨⟨2⟩, 0, 1⟩ := by rfl
  have hy : m.span ⟨0, 3⟩ = .ok ⟨⟨0⟩, 0, 1⟩ := by rfl
  obtain ⟨old, -, -, ⟨-, hself⟩, hothers⟩ :=
    replace_isValid_iff hcompiled (Forest.closed_ofValue _) (Forest.acyclic_ofValue _)
      (Forest.contains_root_ofValue _) hmatch .refl hreplace hw
  obtain ⟨-, hkept⟩ := hothers ⟨0, 3⟩ _ (by decide) hy
  obtain ⟨content, hn, hafter, -⟩ := hkept (by decide +kernel)
  exact ⟨hreplace, hw, hy, hself, by decide +kernel, ⟨content, hn, hafter⟩, by decide +kernel⟩

end Found

end Match

end NestedRegex
